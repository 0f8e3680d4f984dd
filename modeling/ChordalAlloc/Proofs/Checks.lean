/-
ChordalAlloc/Proofs/Checks.lean

Computations that may stop.  A sequence of checks passes exactly when every
check does, and a fold passes if every step does and keeps what makes the
next one pass (`foldlM_ok_of_step`).  What a fold keeps comes with the list
of the steps taken so far: an invariant of a fold mostly speaks about what
has been done.  A fold that passes kept it (`foldlM_of_ok`), and a fold that
stops does so at one of its steps (`foldlM_eq_error`).  Where the list has no
repeats, the step at hand was not taken before (`notMem_before`).

The tables such folds fill start out with gaps; `join_setIfInBounds` says
what an entry is after one of them was set, and `mem_filterMap_id` what the
entries are that there are.

A loop is a function that gives the next state, or none when the loop is over;
`StateTransition.eval` has a value exactly if going on comes to an end.
-/
import Mathlib.Computability.StateTransition
import Mathlib.Data.List.Basic

namespace ChordalAlloc

section Sequences

variable {ε α β σ : Type}

theorem Except.bind_eq_ok {x : Except ε α} {f : α → Except ε β} {b : β} :
    (x >>= f) = .ok b ↔ ∃ a, x = .ok a ∧ f a = .ok b := by
  rcases x with e | a
  · constructor
    · intro h
      cases h
    · rintro ⟨a, h, -⟩
      cases h
  · constructor
    · intro h
      exact ⟨a, rfl, h⟩
    · rintro ⟨a', h, hf⟩
      cases h
      exact hf

theorem Except.bind_congr {x : Except ε α} {f g : α → Except ε β}
    (h : ∀ a, x = .ok a → f a = g a) : x >>= f = x >>= g := by
  rcases x with e | a
  · rfl
  · exact h a rfl

/-- A computation behind a check passes if the check does and it does itself. -/
theorem ite_throw_bind_eq_ok {c : Prop} [Decidable c] {e : ε} {f : α → Except ε β}
    {x : Except ε β} {b : β} :
    (if c then throw e >>= f else x) = .ok b ↔ ¬ c ∧ x = .ok b := by
  by_cases hc : c
  · simp only [hc, if_true, not_true, false_and, iff_false]
    rintro ⟨⟩
  · simp only [hc, if_false, not_false_iff, true_and]

theorem ite_throw_eq_ok {c : Prop} [Decidable c] {e : ε} {x : Except ε β} {b : β} :
    (if c then throw e else x) = .ok b ↔ ¬ c ∧ x = .ok b := by
  by_cases hc : c
  · simp only [hc, if_true, not_true, false_and, iff_false]
    rintro ⟨⟩
  · simp only [hc, if_false, not_false_iff, true_and]

theorem ite_error_eq_ok {c : Prop} [Decidable c] {e : ε} {x : Except ε β} {b : β} :
    (if c then x else .error e) = .ok b ↔ c ∧ x = .ok b := by
  by_cases hc : c
  · simp only [hc, if_true, true_and]
  · simp only [hc, if_false, false_and, iff_false]
    rintro ⟨⟩

theorem forM_eq_ok {xs : List α} {f : α → Except ε Unit} :
    xs.forM f = .ok () ↔ ∀ x ∈ xs, f x = .ok () := by
  induction xs with
  | nil => simp [List.forM, pure, Except.pure]
  | cons x xs ih =>
    rw [show (x :: xs).forM f = (f x >>= fun _ => xs.forM f) from rfl, Except.bind_eq_ok]
    simp only [ih, List.mem_cons, forall_eq_or_imp]
    exact ⟨fun ⟨_, hx, hxs⟩ => ⟨hx, hxs⟩, fun ⟨hx, hxs⟩ => ⟨(), hx, hxs⟩⟩

theorem forM_congr {xs : List α} {f g : α → Except ε Unit} (h : ∀ x ∈ xs, f x = g x) :
    xs.forM f = xs.forM g := by
  induction xs with
  | nil => rfl
  | cons x xs ih =>
    rw [List.forall_mem_cons] at h
    rw [show (x :: xs).forM f = (f x >>= fun _ => xs.forM f) from rfl, h.1, ih h.2]
    rfl

/-- A sequence of checks stops at one of them. -/
theorem forM_eq_error {xs : List α} {f : α → Except ε Unit} {e : ε} (h : xs.forM f = .error e) :
    ∃ x ∈ xs, f x = .error e := by
  induction xs with
  | nil => cases h
  | cons x xs ih =>
    rw [show (x :: xs).forM f = (f x >>= fun _ => xs.forM f) from rfl] at h
    rcases hx : f x with e' | ⟨⟩
    · rw [hx] at h
      cases h
      exact ⟨x, List.mem_cons_self, hx⟩
    · rw [hx] at h
      obtain ⟨y, hy, hstop⟩ := ih h
      exact ⟨y, List.mem_cons_of_mem x hy, hstop⟩

/-- A fold whose steps pass, and keep what makes the next one pass, passes. -/
theorem foldlM_ok_of_step {f : σ → α → Except ε σ} (P : List α → σ → Prop) {xs : List α}
    (hstep : ∀ past x rest s, xs = past ++ x :: rest → P past s →
      ∃ s', f s x = .ok s' ∧ P (past ++ [x]) s')
    {s : σ} (h0 : P [] s) : ∃ s', xs.foldlM f s = .ok s' ∧ P xs s' := by
  have key : ∀ (rest past : List α) (s : σ), xs = past ++ rest → P past s →
      ∃ s', rest.foldlM f s = .ok s' ∧ P xs s' := by
    intro rest
    induction rest with
    | nil =>
      intro past s hxs hs
      exact ⟨s, rfl, by simpa [hxs] using hs⟩
    | cons x rest ih =>
      intro past s hxs hs
      obtain ⟨t, ht, hP⟩ := hstep past x rest s hxs hs
      obtain ⟨s', hs', hP'⟩ := ih (past ++ [x]) t (by simp [hxs]) hP
      refine ⟨s', ?_, hP'⟩
      rw [List.foldlM_cons, ht]
      exact hs'
  exact key xs [] s rfl h0

/-- What the steps of a fold keep when they pass holds at the end if the fold passes. -/
theorem foldlM_of_ok {f : σ → α → Except ε σ} (P : List α → σ → Prop) {xs : List α}
    (hstep : ∀ past x rest s s', xs = past ++ x :: rest → P past s → f s x = .ok s' →
      P (past ++ [x]) s')
    {s s' : σ} (h0 : P [] s) (h : xs.foldlM f s = .ok s') : P xs s' := by
  have key : ∀ (rest past : List α) (s : σ), xs = past ++ rest → P past s →
      rest.foldlM f s = .ok s' → P xs s' := by
    intro rest
    induction rest with
    | nil =>
      intro past s hxs hs hrun
      cases hrun
      simpa [hxs] using hs
    | cons x rest ih =>
      intro past s hxs hs hrun
      rw [List.foldlM_cons, Except.bind_eq_ok] at hrun
      obtain ⟨t, ht, hrest⟩ := hrun
      exact ih (past ++ [x]) t (by simp [hxs]) (hstep past x rest s t hxs hs ht) hrest
  exact key xs [] s rfl h0 h

/-- A fold that passes did so at every step. -/
theorem step_of_foldlM {f : σ → α → Except ε σ} {xs : List α} {s s' : σ}
    (h : xs.foldlM f s = .ok s') {x : α} (hx : x ∈ xs) : ∃ t t', f t x = .ok t' := by
  apply foldlM_of_ok (fun past _ => ∀ x ∈ past, ∃ t t', f t x = .ok t') _ _ h x hx
  · intro past y rest t t' _ hpast hy z hz
    rcases List.mem_append.1 hz with hz | hz
    · exact hpast z hz
    · rw [List.mem_singleton.1 hz]
      exact ⟨t, t', hy⟩
  · exact fun x hx => absurd hx List.not_mem_nil

/-- Two folds agree if their steps do wherever the folds can come to. -/
theorem foldlM_congr {f g : σ → α → Except ε σ} (P : σ → Prop) {xs : List α}
    (hstep : ∀ x ∈ xs, ∀ s, P s → f s x = g s x)
    (hkeep : ∀ x ∈ xs, ∀ s s', P s → g s x = .ok s' → P s') {s : σ} (h : P s) :
    xs.foldlM f s = xs.foldlM g s := by
  induction xs generalizing s with
  | nil => rfl
  | cons x xs ih =>
    rw [List.forall_mem_cons] at hstep hkeep
    rw [List.foldlM_cons, List.foldlM_cons, hstep.1 s h]
    exact Except.bind_congr fun s' hs' => ih hstep.2 hkeep.2 (hkeep.1 s s' h hs')

/-- A fold that stops does so at one of its steps. -/
theorem foldlM_eq_error {f : σ → α → Except ε σ} {xs : List α} {s : σ} {e : ε}
    (h : xs.foldlM f s = .error e) : ∃ x ∈ xs, ∃ t, f t x = .error e := by
  induction xs generalizing s with
  | nil => cases h
  | cons x xs ih =>
    rw [List.foldlM_cons] at h
    rcases hx : f s x with e' | t
    · rw [hx] at h
      cases h
      exact ⟨x, List.mem_cons_self, s, hx⟩
    · rw [hx] at h
      obtain ⟨y, hy, hstop⟩ := ih h
      exact ⟨y, List.mem_cons_of_mem x hy, hstop⟩

/-- Mapping with a check succeeds if it does so everywhere. -/
theorem mapM_eq_ok {f : α → Except ε β} {g : α → β} {xs : List α} (h : ∀ x ∈ xs, f x = .ok (g x)) :
    xs.mapM f = .ok (xs.map g) := by
  induction xs with
  | nil => rfl
  | cons x xs ih =>
    rw [List.forall_mem_cons] at h
    rw [List.mapM_cons, h.1, ih h.2]
    rfl

end Sequences

/-! ### Loops -/

section Loops

variable {σ : Type} {f : σ → Option σ} {s s' t : σ}

theorem mem_eval_of_none (h : f s = none) : s ∈ StateTransition.eval f s :=
  StateTransition.mem_eval.2 ⟨Relation.ReflTransGen.refl, h⟩

theorem mem_eval_of_some (h : f s = some s') (ht : t ∈ StateTransition.eval f s') :
    t ∈ StateTransition.eval f s := by
  rw [StateTransition.reaches_eval (Relation.ReflTransGen.single (Option.mem_def.2 h))]
  exact ht

end Loops

/-! ### Lists without repeats -/

theorem nodup_eraseDups (l : List Nat) : l.eraseDups.Nodup := by
  -- what is done after the first entry is done on a part of the rest
  induction hn : l.length using Nat.strongRecOn generalizing l with
  | _ n ih =>
    cases l with
    | nil =>
      rw [List.eraseDups_nil]
      exact List.nodup_nil
    | cons x l =>
      rw [List.eraseDups_cons, List.nodup_cons]
      refine ⟨fun hx => ?_, ih _ ?_ _ rfl⟩
      · have hne := (List.mem_filter.1 (List.mem_eraseDups.1 hx)).2
        simp at hne
      · rw [← hn]
        exact Nat.lt_succ_of_le (List.length_filter_le _ l)

theorem eraseDups_concat (l : List Nat) (v : Nat) :
    (l ++ [v]).eraseDups = if v ∈ l then l.eraseDups else l.eraseDups ++ [v] := by
  rw [List.eraseDups_append]
  by_cases hv : v ∈ l
  · rw [if_pos hv, List.removeAll, List.filter_cons_of_neg (by simp [hv])]
    simp
  · rw [if_neg hv, List.removeAll, List.filter_cons_of_pos (by simp [hv])]
    simp [List.eraseDups_cons]

/-- Of a list without repeats, an entry does not come before itself. -/
theorem notMem_before {α : Type} {l before after : List α} {x : α} (hnodup : l.Nodup)
    (h : l = before ++ x :: after) : x ∉ before := by
  rw [h, List.nodup_append] at hnodup
  exact fun hmem => hnodup.2.2 x hmem x List.mem_cons_self rfl

/-- If one entry only has a value, this is the value that is found. -/
theorem filterMap_eq_singleton {α β : Type} {f : α → Option β} {l : List α} {a : α} {x : β}
    (hnodup : l.Nodup) (ha : a ∈ l) (hx : f a = some x)
    (huniq : ∀ c ∈ l, (f c).isSome = true → c = a) : l.filterMap f = [x] := by
  obtain ⟨before, after, rfl⟩ := List.append_of_mem ha
  have hnone : ∀ c ∈ before ++ a :: after, c ≠ a → f c = none := fun c hc hne =>
    Option.not_isSome_iff_eq_none.1 fun hsome => hne (huniq c hc hsome)
  have hbefore : before.filterMap f = [] := by
    refine List.filterMap_eq_nil_iff.2 fun c hc => hnone c (List.mem_append_left _ hc) ?_
    rintro rfl
    exact notMem_before hnodup rfl hc
  have hafter : after.filterMap f = [] := by
    refine List.filterMap_eq_nil_iff.2 fun c hc => hnone c (by simp [hc]) ?_
    rintro rfl
    exact (List.nodup_cons.1 (List.nodup_append.1 hnodup).2.1).1 hc
  rw [List.filterMap_append, hbefore, List.filterMap_cons_some hx, hafter]
  rfl

/-! ### The end of a list -/

theorem getLast?_modify {α : Type} (l : List α) (f : α → α) :
    (l.modify (l.length - 1) f).getLast? = l.getLast?.map f := by
  rw [List.getLast?_eq_getElem?, List.length_modify, List.getElem?_modify_eq,
    ← List.getLast?_eq_getElem?]
  rfl

/-! ### Tables with gaps -/

theorem lt_size_of_join {α : Type} {table : Array (Option α)} {j : Nat} {x : α}
    (h : (table[j]?).join = some x) : j < table.size :=
  (Array.getElem?_eq_some_iff.1 (Option.join_eq_some_iff.1 h)).1

theorem join_setIfInBounds {α : Type} (table : Array (Option α)) (k : Nat) (x : Option α)
    (j : Nat) : ((table.setIfInBounds k x)[j]?).join =
      if k = j ∧ j < table.size then x else (table[j]?).join := by
  rw [Array.getElem?_setIfInBounds]
  by_cases hkj : k = j
  · subst hkj
    by_cases hk : k < table.size
    · rw [if_pos rfl, if_pos hk, if_pos ⟨rfl, hk⟩, Option.join_some]
    · rw [if_pos rfl, if_neg hk, if_neg fun h => hk h.2,
        Array.getElem?_eq_none (Nat.le_of_not_lt hk)]
  · rw [if_neg hkj, if_neg fun h => hkj h.1]

theorem mem_filterMap_id {α : Type} {table : Array (Option α)} {x : α} :
    x ∈ table.toList.filterMap id ↔ ∃ j : Nat, (table[j]?).join = some x := by
  simp only [List.mem_filterMap, id_eq, exists_eq_right, Array.mem_toList_iff,
    Array.mem_iff_getElem?, Option.join_eq_some_iff]

end ChordalAlloc
