/-
ChordalAlloc/Proofs/Trim.lean

Copies for the operands of phis can come and go.

Two programs differ by trimming (`Program.Trims`) if one has copies, into
variables that are read by nothing but phis, that the other lacks or has
replaced by `nop`; and where a phi of one program reads the target of such a
copy, the same phi of the other reads what was copied.  Then the two run
side by side, block by block, and agree on all variables but the targets
(`Trims.sameBehavior`).

The point that needs care is the end of a block.  A copy that stands
somewhere in a block serves the phis of the next one only if neither its
target nor its source is set again before the end (`Settled`).
-/
import ChordalAlloc.Proofs.Steps

namespace ChordalAlloc

/-! ### A block with and without copies -/

/-- The first instructions are the second without copies into the variables of `T`, or with
`nop` in their place.  No other instruction reads variables of `T`. -/
inductive Trimmed (T : Var → Prop) : List Instr → List Instr → Prop
  | nil : Trimmed T [] []
  | keep {i : Instr} {is is' : List Instr} : (∀ v ∈ i.reads, ¬ T v) → Trimmed T is is' →
    Trimmed T (i :: is) (i :: is')
  | skip {t x : Var} {is is' : List Instr} : T t → Trimmed T is is' →
    Trimmed T is (.copy t x :: is')
  | blank {t x : Var} {is is' : List Instr} : T t → Trimmed T is is' →
    Trimmed T (.nop :: is) (.copy t x :: is')

theorem Trimmed.refl {T : Var → Prop} {is : List Instr} (h : ∀ i ∈ is, ∀ v ∈ i.reads, ¬ T v) :
    Trimmed T is is := by
  induction is with
  | nil => exact .nil
  | cons i is ih =>
    rw [List.forall_mem_cons] at h
    exact .keep h.1 (ih h.2)

theorem Trimmed.append {T : Var → Prop} {is is' js js' : List Instr} (h : Trimmed T is is')
    (hj : Trimmed T js js') : Trimmed T (is ++ js) (is' ++ js') := by
  induction h with
  | nil => exact hj
  | keep hr _ ih => exact .keep hr ih
  | skip ht _ ih => exact .skip ht ih
  | blank ht _ ih => exact .blank ht ih

/-- The memories agree on all variables outside of `T`. -/
structure AgreeOff (T : Var → Prop) (m m' : Memory) : Prop where
  calls : m.calls = m'.calls
  cells : ∀ v, ¬ T v → m.cells v = m'.cells v

section Bodies

variable {T : Var → Prop} {w : World} {m m' : Memory}

theorem AgreeOff.exec {i : Instr} (ha : AgreeOff T m m') (hr : ∀ v ∈ i.reads, ¬ T v) :
    AgreeOff T (i.exec w id m) (i.exec w id m') := by
  have hreads : ∀ v ∈ i.reads, m.read id v = m'.read id v := fun v hv => ha.cells v (hr v hv)
  constructor
  · show m.calls ++ i.callsMade (m.read id) = m'.calls ++ i.callsMade (m'.read id)
    rw [ha.calls, Instr.callsMade_congr hreads]
  · intro v hv
    have hvalue : i.value w (m.read id) m.calls = i.value w (m'.read id) m'.calls := by
      rw [ha.calls, Instr.value_congr hreads]
    rcases hd : i.dst? with - | d
    · simp only [Instr.exec, hd]
      exact ha.cells v hv
    · simp only [Instr.exec, hd, hvalue]
      by_cases hvd : v = d
      · rw [hvd]
        show Function.update m.cells d _ d = Function.update m'.cells d _ d
        rw [Function.update_self, Function.update_self]
      · show Function.update m.cells d _ v = Function.update m'.cells d _ v
        rw [Function.update_of_ne hvd, Function.update_of_ne hvd]
        exact ha.cells v hv

theorem AgreeOff.copy {t x : Var} (ha : AgreeOff T m m') (ht : T t) :
    AgreeOff T m ((Instr.copy t x).exec w id m') := by
  refine ⟨?_, fun v hv => ?_⟩
  · show m.calls = m'.calls ++ []
    rw [List.append_nil, ha.calls]
  · have hvt : v ≠ t := fun h => hv (h ▸ ht)
    show m.cells v = Function.update m'.cells t _ v
    rw [Function.update_of_ne hvt]
    exact ha.cells v hv

theorem exec_nop : Instr.nop.exec w id m = m := by
  show Memory.mk m.cells (m.calls ++ []) = m
  rw [List.append_nil]

/-- A block and its trimmed form do the same to the variables outside of `T`. -/
theorem Trimmed.runBody {is is' : List Instr} (h : Trimmed T is is') (ha : AgreeOff T m m') :
    (runBody w id is m).2 = (runBody w id is' m').2 ∧
      AgreeOff T (runBody w id is m).1 (runBody w id is' m').1 := by
  induction h generalizing m m' with
  | nil => exact ⟨rfl, ha⟩
  | @keep i is is' hr _ ih =>
    rw [ChordalAlloc.runBody, ChordalAlloc.runBody]
    split
    · exact ⟨Instr.exit_congr fun v hv => ha.cells v (hr v hv), ha⟩
    · exact ih (ha.exec hr)
  | skip ht _ ih => exact ih (ha.copy ht)
  | blank ht _ ih =>
    show (ChordalAlloc.runBody w id _ (Instr.nop.exec w id m)).2 = _ ∧ AgreeOff T
      (ChordalAlloc.runBody w id _ (Instr.nop.exec w id m)).1 _
    rw [exec_nop]
    exact ih (ha.copy ht)

/-- A copy whose target and source are not set again up to the end of the block. -/
def Settled (is : List Instr) (t x : Var) : Prop :=
  ∃ front back, is = front ++ .copy t x :: back ∧ t ≠ x ∧
    (∀ i ∈ front, i.isTerminator = false) ∧ ∀ i ∈ back, i.dst? ≠ some t ∧ i.dst? ≠ some x

theorem exec_cells_of_ne {i : Instr} {v : Var} (h : i.dst? ≠ some v) :
    (i.exec w id m).cells v = m.cells v := by
  rcases hd : i.dst? with - | d
  · simp only [Instr.exec, hd]
  · have hvd : v ≠ d := by
      rintro rfl
      exact h hd
    simp only [Instr.exec, hd]
    exact Function.update_of_ne hvd _ _

theorem runBody_cells_of_ne {is : List Instr} {v : Var} (h : ∀ i ∈ is, i.dst? ≠ some v) :
    (runBody w id is m).1.cells v = m.cells v := by
  induction is generalizing m with
  | nil => rfl
  | cons i is ih =>
    rw [List.forall_mem_cons] at h
    rw [ChordalAlloc.runBody]
    split
    · rfl
    · rw [ih h.2, exec_cells_of_ne h.1]

/-- At the end of the block the copy still holds. -/
theorem Settled.cells {is : List Instr} {t x : Var} (h : Settled is t x) :
    (runBody w id is m).1.cells t = (runBody w id is m).1.cells x := by
  obtain ⟨front, back, rfl, hne, hfront, hback⟩ := h
  induction front generalizing m with
  | nil =>
    show (ChordalAlloc.runBody w id back ((Instr.copy t x).exec w id m)).1.cells t
      = (ChordalAlloc.runBody w id back ((Instr.copy t x).exec w id m)).1.cells x
    rw [runBody_cells_of_ne fun i hi => (hback i hi).1,
      runBody_cells_of_ne fun i hi => (hback i hi).2]
    show Function.update m.cells t (m.cells x) t = Function.update m.cells t (m.cells x) x
    rw [Function.update_self, Function.update_of_ne hne.symm]
  | cons i front ih =>
    rw [List.forall_mem_cons] at hfront
    rw [List.cons_append, ChordalAlloc.runBody, hfront.1]
    exact ih hfront.2

end Bodies

/-! ### Whole programs -/

namespace Program

/-- The first program is the second without some copies for operands of phis. -/
structure Trims (T : Var → Prop) (p p' : Program) : Prop where
  size : p.blocks.size = p'.blocks.size
  body : ∀ b, Trimmed T (p.body b) (p'.body b)
  receivers : ∀ b, p.receivers b = p'.receivers b
  /-- Phis in the same place read the same, or a copy and what was copied. -/
  args : ∀ (s b : Label) (k : Nat) (φ φ' : Phi) (x x' : Var),
    (p.phis b)[k]? = some φ → (p'.phis b)[k]? = some φ' →
    ⟨s, x⟩ ∈ φ.args → ⟨s, x'⟩ ∈ φ'.args → ¬ T x ∧ (x' = x ∨ Settled (p'.body s) x' x)

/-- The runs are at the same point and agree outside of `T`, and what was copied at the end of
the block that control comes from still holds. -/
inductive TrimOn (T : Var → Prop) (p p' : Program) : Config → Config → Prop
  | begun {m m' : Memory} : AgreeOff T m m' →
    TrimOn T p p' (.running none 0 m) (.running none 0 m')
  | onEdge {s b : Label} {m m' : Memory} : p.Edge s b → p'.Edge s b → AgreeOff T m m' →
    (∀ t x, Settled (p'.body s) t x → m'.cells t = m'.cells x) →
    TrimOn T p p' (.running (some s) b m) (.running (some s) b m')
  | ended {o : Outcome} {cs : List Call} : TrimOn T p p' (.ended o cs) (.ended o cs)

namespace Trims

variable {T : Var → Prop} {p p' : Program} {n : Nat} {w : World} {s b : Label} {m m' : Memory}

theorem enter (ht : Trims T p p') (h : p.WellFormed n) (h' : p'.WellFormed n)
    (he : p.Edge s b) (he' : p'.Edge s b) (ha : AgreeOff T m m')
    (hs : ∀ t x, Settled (p'.body s) t x → m'.cells t = m'.cells x) :
    AgreeOff T (enterPhis id (p.phis b) s m) (enterPhis id (p'.phis b) s m') := by
  refine ⟨ha.calls, fun v hv => ?_⟩
  by_cases hrec : v ∈ p.receivers b
  · obtain ⟨k, hk⟩ := List.mem_iff_getElem?.1 hrec
    have hk' := hk
    rw [ht.receivers] at hk'
    rw [Program.receivers, List.getElem?_map, Option.map_eq_some_iff] at hk hk'
    obtain ⟨φ, hφ, rfl⟩ := hk
    obtain ⟨φ', hφ', hdst⟩ := hk'
    obtain ⟨x, hx, hmem⟩ := h.exists_argFrom (List.mem_of_getElem? hφ) he
    obtain ⟨x', hx', hmem'⟩ := h'.exists_argFrom (List.mem_of_getElem? hφ') he'
    obtain ⟨hxT, hsame⟩ := ht.args s b k φ φ' x x' hφ hφ' hmem hmem'
    rw [enterPhis_of_mem (h.nodup_receivers b) (List.mem_of_getElem? hφ) hx, ← hdst,
      enterPhis_of_mem (h'.nodup_receivers b) (List.mem_of_getElem? hφ') hx']
    show m.cells x = m'.cells x'
    rw [ha.cells x hxT]
    rcases hsame with rfl | hsettled
    · rfl
    · exact (hs x' x hsettled).symm
  · have hrec' : v ∉ p'.receivers b := ht.receivers b ▸ hrec
    rw [enterPhis_of_notMem hrec, enterPhis_of_notMem hrec']
    exact ha.cells v hv

theorem runBody (ht : Trims T p p') (h : p.WellFormed n) (h' : p'.WellFormed n)
    (ha : AgreeOff T m m') :
    TrimOn T p p' (.after b (runBody w id (p.body b) m))
      (.after b (ChordalAlloc.runBody w id (p'.body b) m')) := by
  obtain ⟨hexit, hend⟩ := (ht.body b).runBody (w := w) ha
  have hedge := h.edge_of_runBody (b := b) (w := w) (m := m)
  have hedge' := h'.edge_of_runBody (b := b) (w := w) (m := m')
  have hsettled : ∀ t x, Settled (p'.body b) t x →
      (ChordalAlloc.runBody w id (p'.body b) m').1.cells t
        = (ChordalAlloc.runBody w id (p'.body b) m').1.cells x := fun t x hs => hs.cells
  rcases hr : ChordalAlloc.runBody w id (p.body b) m with ⟨m₁, e⟩
  rcases hr' : ChordalAlloc.runBody w id (p'.body b) m' with ⟨m₁', e'⟩
  rw [hr] at hexit hend hedge
  rw [hr'] at hexit hend hedge' hsettled
  obtain rfl : e = e' := hexit
  cases e with
  | goto t => exact .onEdge (hedge t rfl) (hedge' t rfl) hend hsettled
  | leave o =>
    show TrimOn T p p' (.ended o m₁.calls) (.ended o m₁'.calls)
    rw [show m₁.calls = m₁'.calls from hend.calls]
    exact .ended

/-- The runs go side by side. -/
theorem step (ht : Trims T p p') (h : p.WellFormed n) (h' : p'.WellFormed n) {c c' : Config}
    (hr : TrimOn T p p' c c') : TrimOn T p p' (p.step w id c) (p'.step w id c') := by
  cases hr with
  | begun ha =>
    rw [step_running h.entry, step_running h'.entry]
    exact ht.runBody h h' ha
  | onEdge he he' ha hs =>
    rw [step_running he.2, step_running he'.2]
    exact ht.runBody h h' (ht.enter h h' he he' ha hs)
  | ended => exact .ended

/-- **Trimming copies changes nothing that can be observed.** -/
theorem sameBehavior (ht : Trims T p p') (h : p.WellFormed n) (h' : p'.WellFormed n) (w : World)
    (args : Fin (n + 1) → Int64) : SameBehavior (p.run w id args) (p'.run w id args) := by
  apply SameBehavior.of_simulation (R := TrimOn T p p')
  · intro c c' hr
    cases hr with
    | begun ha => exact ha.calls
    | onEdge _ _ ha _ => exact ha.calls
    | ended => rfl
  · intro source b m c' hr
    cases hr with
    | begun _ => exact ⟨_, _, _, rfl⟩
    | onEdge _ _ _ _ => exact ⟨_, _, _, rfl⟩
  · intro o cs c' hr
    cases hr
    rfl
  · intro source b m c' hr
    exact ⟨0, ht.step h h' hr⟩
  · exact .begun ⟨rfl, fun _ _ => rfl⟩

end Trims

end Program

end ChordalAlloc
