/-
ChordalAlloc/Proofs/Lookups.lean

Computations that stop where a request has no answer.

What runs is total: it goes on with a default where a table has no entry, and
leaves a table alone where there is nothing to change.  To say that no default
is ever used, a computation is written down once more with values in `Option`,
so that a request without an answer is the end of it.  Such requests are to
read or change a table beyond its end (`setAt?`, `modifyAt?`), to put an index
into a set below its capacity, to combine sets of different capacities, and to
go on with a loop that has used up its rounds.  Then it is shown to give what
the total one gives.

A fold or a map does so if each of its steps does (`foldlM_of_step`,
`mapM_eq_some`).  A computation that may give up for other reasons gives up with
a breach (`require`).
-/
import Mathlib.Data.List.Basic
import ChordalAlloc.IndexSet

namespace ChordalAlloc

section Tables

variable {α : Type} {xs : Array α} {i : Nat}

/-- Change an entry of a table that has it. -/
def setAt? (xs : Array α) (i : Nat) (x : α) : Option (Array α) :=
  if i < xs.size then some (xs.setIfInBounds i x) else none

/-- Change an entry of a table that has it, if there is an answer to what is asked of the entry. -/
def modifyAt? (xs : Array α) (i : Nat) (f : α → Option α) : Option (Array α) := do
  let x ← xs[i]?
  setAt? xs i (← f x)

theorem getElem?_eq_getD (h : i < xs.size) (d : α) : xs[i]? = some (xs.getD i d) := by
  rw [Array.getD_eq_getD_getElem?, Array.getElem?_eq_getElem h]
  rfl

theorem setAt?_eq (h : i < xs.size) (x : α) : setAt? xs i x = some (xs.setIfInBounds i x) :=
  if_pos h

theorem modifyAt?_eq {f : α → Option α} {g : α → α} (h : i < xs.size)
    (hf : ∀ x, xs[i]? = some x → f x = some (g x)) : modifyAt? xs i f = some (xs.modify i g) := by
  have hi : xs[i]? = some xs[i] := Array.getElem?_eq_getElem h
  have hset : xs.setIfInBounds i (g xs[i]) = xs.modify i g := by
    ext j hj hj'
    · simp
    · rw [Array.getElem_setIfInBounds, Array.getElem_modify]
      split
      · next hij => subst hij; rfl
      · rfl
  rw [modifyAt?, hi, Option.bind_eq_bind, Option.bind_some, hf _ hi, Option.bind_some,
    setAt?_eq h, hset]

end Tables

section Sequences

variable {α β σ τ : Type}

/-- A fold whose steps have answers and keep up with those of another fold has an answer and keeps
up with it. -/
theorem foldlM_of_step {f : σ → α → Option σ} {g : τ → α → τ} (R : σ → τ → Prop) {xs : List α}
    (hstep : ∀ x ∈ xs, ∀ s t, R s t → ∃ s', f s x = some s' ∧ R s' (g t x)) {s : σ} {t : τ}
    (h : R s t) : ∃ s', xs.foldlM f s = some s' ∧ R s' (xs.foldl g t) := by
  induction xs generalizing s t with
  | nil => exact ⟨s, rfl, h⟩
  | cons x xs ih =>
    rw [List.forall_mem_cons] at hstep
    obtain ⟨s₁, hs₁, h₁⟩ := hstep.1 s t h
    rw [List.foldlM_cons, hs₁]
    exact ih hstep.2 h₁

/-- The case of two folds over the same states. -/
theorem foldlM_eq_some {f : σ → α → Option σ} {g : σ → α → σ} (P : σ → Prop) {xs : List α}
    (hstep : ∀ x ∈ xs, ∀ s, P s → f s x = some (g s x) ∧ P (g s x)) {s : σ} (h : P s) :
    xs.foldlM f s = some (xs.foldl g s) ∧ P (xs.foldl g s) := by
  obtain ⟨s', hs', rfl, hP⟩ := foldlM_of_step (fun s t => s = t ∧ P s) (g := g) (by
    rintro x hx s t ⟨rfl, hs⟩
    obtain ⟨hf, hg⟩ := hstep x hx s hs
    exact ⟨_, hf, rfl, hg⟩) ⟨rfl, h⟩
  exact ⟨hs', hP⟩

/-- A map has an answer if it has one everywhere. -/
theorem mapM_eq_some {f : α → Option β} {g : α → β} {xs : List α}
    (h : ∀ x ∈ xs, f x = some (g x)) : xs.mapM f = some (xs.map g) := by
  induction xs with
  | nil => rfl
  | cons x xs ih =>
    rw [List.forall_mem_cons] at h
    rw [List.mapM_cons, h.1, ih h.2]
    rfl

/-- Then leaving out what has no answer leaves out nothing. -/
theorem mapM_eq_filterMap {f : α → Option β} {xs : List α} (h : ∀ x ∈ xs, ∃ y, f x = some y) :
    xs.mapM f = some (xs.filterMap f) := by
  induction xs with
  | nil => rfl
  | cons x xs ih =>
    rw [List.forall_mem_cons] at h
    obtain ⟨y, hy⟩ := h.1
    rw [List.mapM_cons, hy, ih h.2, List.filterMap_cons_some hy]
    rfl

/-- The answer to a request, for want of which a computation gives up. -/
def require {ε : Type} (e : ε) : Option α → Except ε α
  | some a => .ok a
  | none => .error e

theorem require_bind {ε : Type} (e : ε) (a : α) (f : α → Except ε β) :
    require e (some a) >>= f = f a := rfl

end Sequences

/-! ### Sets -/

namespace IndexSet

variable {s t : IndexSet} {i : Nat}

/-- Add an index below the capacity. -/
def add? (s : IndexSet) (i : Nat) : Option IndexSet := (s.insert? i).map (·.2)

/-- Add an index that is below `n`, and leave the set alone otherwise. -/
def addBelow? (n : Nat) (s : IndexSet) (i : Nat) : Option IndexSet :=
  if i < n then s.add? i else some s

/-- Whether an index below the capacity is a member. -/
def read? (s : IndexSet) (i : Nat) : Option Bool :=
  if i < s.capacity then some (s.contains i) else none

/-- Take out the members of a set of the same capacity. -/
def subtract? (s t : IndexSet) : Option IndexSet := (s.diff? t).map (·.2)

theorem add?_eq (h : i < s.capacity) : s.add? i = some (s.insert i) := by
  rw [add?, insert?, if_pos h]
  rfl

theorem addBelow?_eq {n : Nat} (h : s.capacity = n) (i : Nat) :
    s.addBelow? n i = some (s.insert i) := by
  unfold addBelow?
  by_cases hi : i < n
  · rw [if_pos hi, add?_eq (h.symm ▸ hi)]
  · rw [if_neg hi, insert, if_neg (h.symm ▸ hi)]

theorem read?_eq (h : i < s.capacity) : s.read? i = some (s.contains i) := if_pos h

theorem subtract?_eq (h : s.capacity = t.capacity) : s.subtract? t = some (s.diff t) := by
  rw [subtract?, diff?, if_pos h]
  rfl

theorem meet?_eq (h : s.capacity = t.capacity) : s.meet? t = some (s.union t) := by
  rw [meet?, union?, if_pos h]
  rfl

/-- Adding the indices below the capacity of a set one by one. -/
theorem foldlM_addBelow? {n : Nat} (h : s.capacity = n) (is : List Nat) :
    is.foldlM (addBelow? n) s = some (is.foldl insert s) :=
  (foldlM_eq_some (fun s => s.capacity = n)
    (fun i _ s hs => ⟨addBelow?_eq hs i, (s.capacity_insert i).trans hs⟩) h).1

end IndexSet

end ChordalAlloc
