/-
ChordalAlloc/Proofs/Following.lean

A run that follows another one block by block.

That two programs show the same behaviour says nothing about where they are
and what their variables hold on the way.  `Follows` does: there are moments
of the second run, one for each block of the first, at which both come to
the same block, and once its phis have been read every variable of the first
program has the same value in both.  Between two such moments the second run
is in blocks that the first program does not have.

A relation that every block of the first run carries over gives the moments
one after the other (`exists_follows`).  Following composes, by composition
of the moments (`Follows.trans`), so a program that was changed step by step
follows the one that all began with (`Shadows`).  The two changes that
lowering is made of are a block put on an edge (`Detours.shadows`) and a
copy put before a jump (`CopyAdded.shadows`).
-/
import Mathlib.Order.Monotone.Basic
import Mathlib.Tactic.Choose
import ChordalAlloc.Proofs.AddedCopy
import ChordalAlloc.Proofs.Detour

namespace ChordalAlloc

namespace Program

/-! ### Moments -/

/-- Both runs come to the same block, with the same calls made and, after its phis, the same
values in the variables of `p`; or both have ended alike. -/
inductive SameEntry (p q : Program) : Config → Config → Prop
  | running {source source' : Option Label} {b : Label} {m m' : Memory} :
    m.calls = m'.calls →
    (∀ v, v < p.vars.size →
      (p.enter id source b m).cells v = (q.enter id source' b m').cells v) →
    SameEntry p q (.running source b m) (.running source' b m')
  | ended {o : Outcome} {cs : List Call} : SameEntry p q (.ended o cs) (.ended o cs)

/-- The run comes to a block that `q` has and `p` does not. -/
def Interposed (p q : Program) : Config → Prop
  | .running _ b _ => p.blocks.size ≤ b ∧ b < q.blocks.size
  | .ended _ _ => False

/-- The run `s` of `q` follows the run `r` of `p`: it is at moment `time k` where the other is
after `k` blocks, and between these moments it is in blocks of its own. -/
structure Follows (p q : Program) (r s : Nat → Config) (time : Nat → Nat) : Prop where
  zero : time 0 = 0
  strictMono : StrictMono time
  same : ∀ k, SameEntry p q (r k) (s (time k))
  between : ∀ k i, time k < i → i < time (k + 1) → Interposed p q (s i)

variable {p q q' : Program} {n : Nat} {w : World} {c c' c'' : Config}

theorem SameEntry.refl (p : Program) (c : Config) : SameEntry p p c c := by
  cases c with
  | running source b m => exact .running rfl fun _ _ => rfl
  | ended o cs => exact .ended

theorem SameEntry.trans (hvars : p.vars.size ≤ q.vars.size) (h : SameEntry p q c c')
    (h' : SameEntry q q' c' c'') : SameEntry p q' c c'' := by
  cases h with
  | running hcalls hcells =>
    cases h' with
    | running hcalls' hcells' =>
      refine .running (hcalls.trans hcalls') fun v hv => ?_
      exact (hcells v hv).trans (hcells' v (Nat.lt_of_lt_of_le hv hvars))
  | ended =>
    cases h'
    exact .ended

theorem Interposed.mono (hp : p.blocks.size ≤ q.blocks.size) (h : Interposed q q' c) :
    Interposed p q' c := by
  cases c with
  | running source b m => exact ⟨hp.trans h.1, h.2⟩
  | ended o cs => exact h

/-- Where a run is in a block of its own, so is one that is at the same block. -/
theorem Interposed.of_sameEntry (hq : q.blocks.size ≤ q'.blocks.size) (h : Interposed p q c)
    (hs : SameEntry q q' c c') : Interposed p q' c' := by
  cases hs with
  | running _ _ => exact ⟨h.1, Nat.lt_of_lt_of_le h.2 hq⟩
  | ended => exact h

/-! ### From a relation to the moments -/

/-- The moments at which one run has caught up with another, given by how many more blocks it
takes the one to catch up with the next block of the other. -/
def moments (gap : Config → Config → Nat) (r s : Nat → Config) : Nat → Nat
  | 0 => 0
  | k + 1 => gap (r k) (s (moments gap r s k)) + 1 + moments gap r s k

/-- **A relation that every block carries over lets one run follow the other**, if it relates
configurations only where the runs come to the same block and if the second run is in blocks of
its own whenever it is behind. -/
theorem exists_follows {R : Config → Config → Prop}
    (hsame : ∀ c c', R c c' → SameEntry p q c c')
    (hstep : ∀ source b m c', R (.running source b m) c' →
      ∃ k, R (p.step w id (.running source b m)) ((q.step w id)^[k + 1] c') ∧
        ∀ i < k, Interposed p q ((q.step w id)^[i + 1] c'))
    (h : R c c') :
    ∃ time, Follows p q (fun k => (p.step w id)^[k] c) (fun k => (q.step w id)^[k] c') time := by
  have hnext : ∀ c c', R c c' → ∃ k, R (p.step w id c) ((q.step w id)^[k + 1] c') ∧
      ∀ i < k, Interposed p q ((q.step w id)^[i + 1] c') := by
    intro c c' hr
    rcases c with ⟨source, b, m⟩ | ⟨o, cs⟩
    · exact hstep source b m c' hr
    · -- runs that have ended stay where they are
      cases hsame _ _ hr
      exact ⟨0, hr, fun i hi => absurd hi (Nat.not_lt_zero i)⟩
  choose! gap hgap hbetween using hnext
  let time := moments gap (fun k => (p.step w id)^[k] c) fun k => (q.step w id)^[k] c'
  have hsucc : ∀ k, time (k + 1)
      = gap ((p.step w id)^[k] c) ((q.step w id)^[time k] c') + 1 + time k := fun _ => rfl
  have hrel : ∀ k, R ((p.step w id)^[k] c) ((q.step w id)^[time k] c') := by
    intro k
    induction k with
    | zero => exact h
    | succ k ih =>
      rw [Function.iterate_succ_apply', hsucc, Function.iterate_add_apply]
      exact hgap _ _ ih
  refine ⟨time, rfl, strictMono_nat_of_lt_succ fun k => ?_, fun k => hsame _ _ (hrel k),
    fun k i hlt hi => ?_⟩
  · rw [hsucc]
    omega
  · obtain ⟨j, rfl⟩ := Nat.exists_eq_add_of_lt hlt
    have hj : j < gap ((p.step w id)^[k] c) ((q.step w id)^[time k] c') := by
      rw [hsucc] at hi
      omega
    show Interposed p q ((q.step w id)^[time k + j + 1] c')
    rw [show time k + j + 1 = j + 1 + time k by omega, Function.iterate_add_apply]
    exact hbetween _ _ (hrel k) j hj

/-! ### Composition -/

/-- What lies from one moment on and before another lies between two successive ones. -/
theorem exists_moment {time : Nat → Nat} {a b i : Nat} (hab : a ≤ b) (ha : time a ≤ i)
    (hb : i < time b) : ∃ k, a ≤ k ∧ k < b ∧ time k ≤ i ∧ i < time (k + 1) := by
  induction b, hab using Nat.le_induction with
  | base => exact absurd hb (Nat.not_lt.2 ha)
  | succ b hab ih =>
    rcases Nat.lt_or_ge i (time b) with hlt | hge
    · obtain ⟨k, hk, hkb, hrest⟩ := ih hlt
      exact ⟨k, hk, Nat.lt_succ_of_lt hkb, hrest⟩
    · exact ⟨b, hab, Nat.lt_succ_self b, hge, hb⟩

theorem Follows.trans {r s t : Nat → Config} {time time' : Nat → Nat}
    (hvars : p.vars.size ≤ q.vars.size) (hp : p.blocks.size ≤ q.blocks.size)
    (hq : q.blocks.size ≤ q'.blocks.size) (h : Follows p q r s time)
    (h' : Follows q q' s t time') : Follows p q' r t (time' ∘ time) where
  zero := by
    show time' (time 0) = 0
    rw [h.zero, h'.zero]
  strictMono := h'.strictMono.comp h.strictMono
  same k := (h.same k).trans hvars (h'.same (time k))
  between k i hlt hi := by
    have hle : time k ≤ time (k + 1) := h.strictMono.monotone (Nat.le_succ k)
    obtain ⟨j, hkj, hj, hji, hij⟩ := exists_moment hle (Nat.le_of_lt hlt) hi
    rcases Nat.lt_or_eq_of_le hji with hji | rfl
    · exact (h'.between j i hji hij).mono hp
    · -- the second run is in a block of its own, and the third at the same block
      have hkj : time k < j := h'.strictMono.lt_iff_lt.1 hlt
      exact (h.between k j hkj hj).of_sameEntry hq (h'.same j)

/-! ### Programs -/

/-- Runs of `q` follow those of `p`. -/
structure Shadows (n : Nat) (p q : Program) : Prop where
  vars : p.vars.size ≤ q.vars.size
  size : p.blocks.size ≤ q.blocks.size
  follows : ∀ (w : World) (args : Fin (n + 1) → Int64),
    ∃ time, Follows p q (p.run w id args) (q.run w id args) time

theorem Shadows.refl (n : Nat) (p : Program) : Shadows n p p where
  vars := Nat.le_refl _
  size := Nat.le_refl _
  follows _ _ := ⟨id, rfl, strictMono_id, fun _ => SameEntry.refl p _,
    fun _ _ hlt hi => absurd hi (Nat.not_lt.2 hlt)⟩

theorem Shadows.trans (h : Shadows n p q) (h' : Shadows n q q') : Shadows n p q' where
  vars := h.vars.trans h'.vars
  size := h.size.trans h'.size
  follows w args := by
    obtain ⟨time, hfollows⟩ := h.follows w args
    obtain ⟨time', hfollows'⟩ := h'.follows w args
    exact ⟨time' ∘ time, hfollows.trans h.vars h.size h'.size hfollows'⟩

theorem Detours.shadows {s b : Label} (hd : Detours p q s b) (h : p.WellFormed n) :
    Shadows n p q where
  vars := by rw [hd.vars]
  size := by
    rw [hd.size]
    exact Nat.le_succ _
  follows w args := by
    apply exists_follows (R := Detours.On p s b)
    · intro c c' hr
      cases hr with
      | begun => exact .running rfl fun _ _ => rfl
      | @onEdge x y m he =>
        have henter : enterPhis id (q.phis y) (p.via s b y x) m = enterPhis id (p.phis y) x m :=
          hd.enterPhis_eq h he m
        refine .running rfl fun v _ => ?_
        show (enterPhis id (p.phis y) x m).cells v
          = (enterPhis id (q.phis y) (p.via s b y x) m).cells v
        rw [henter]
      | ended => exact .ended
    · intro source c m c' hr
      obtain ⟨k, hon, hnew⟩ := Detours.On.step hd h (w := w) hr
      refine ⟨k, hon, fun i hi => ?_⟩
      obtain ⟨x, m', hconf⟩ := hnew i hi
      rw [hconf]
      show p.blocks.size ≤ p.blocks.size ∧ p.blocks.size < q.blocks.size
      rw [hd.size]
      exact ⟨Nat.le_refl _, Nat.lt_succ_self _⟩
    · exact .begun

/-- Trimmed programs run side by side. -/
theorem Trims.sameEntry {T : Var → Prop} (ht : Trims T p q) (h : p.WellFormed n)
    (h' : q.WellFormed n) (hT : ∀ v, v < p.vars.size → ¬ T v) (hr : TrimOn T p q c c') :
    SameEntry p q c c' := by
  cases hr with
  | begun ha => exact .running ha.calls fun v hv => ha.cells v (hT v hv)
  | onEdge he he' ha hs =>
    exact .running ha.calls fun v hv => (ht.enter h h' he he' ha hs).cells v (hT v hv)
  | ended => exact .ended

theorem CopyAdded.shadows {b : Label} {k j : Nat} {loc : Label} {x : Var} {init : List Instr}
    (hc : CopyAdded p q b k j loc x init) (h : p.WellFormed n) : Shadows n p q where
  vars := by
    rw [hc.vars, Array.size_push]
    exact Nat.le_succ _
  size := Nat.le_of_eq hc.size.symm
  follows w args := by
    have ht := hc.trims h
    have h' := hc.wellFormed h
    apply exists_follows (R := TrimOn (· = p.vars.size) p q)
    · intro c c' hr
      exact ht.sameEntry h h' (fun v hv => Nat.ne_of_lt hv) hr
    · intro source c m c' hr
      exact ⟨0, ht.step h h' hr, fun i hi => absurd hi (Nat.not_lt_zero i)⟩
    · exact .begun ⟨rfl, fun _ _ => rfl⟩

end Program

end ChordalAlloc
