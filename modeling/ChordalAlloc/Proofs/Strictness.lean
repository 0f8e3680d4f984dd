/-
ChordalAlloc/Proofs/Strictness.lean

Variables that are live at the same time, in programs where definitions come
before uses.

The interference graph knows of pairs of which one is set where the other is
live.  That two variables are live at the same point is not enough to make
them interfere: both may have been live since before the entry.  In a strict
program this cannot be (`Strict.entered`), and then of two variables that are
live at a point, the one set later was set where the other was live; to find
that place one walks back from the point towards the entry
(`Entered.clash_of_live`).

Strictness itself is not kept by lowering and merging as it stands, but what
it gives is: only parameters are live on entry (`Refines.entered`).  So the
registers of the output tell variables that are live together apart
(`allocate_apart`).
-/
import ChordalAlloc.Proofs.Allocation

namespace ChordalAlloc

namespace Program

/-! ### Walks and dominance -/

/-- Control may come from the entry to the second block by way of the first ones, latest first. -/
inductive Walk (p : Program) : List Label → Label → Prop
  | start : Walk p [] 0
  | step {past : List Label} {b s : Label} : Walk p past b → p.Edge b s → Walk p (b :: past) s

/-- Control may come to the block. -/
def Reachable (p : Program) (b : Label) : Prop := ∃ past, p.Walk past b

/-- Control comes to `b` by way of `d` only. -/
def Dominates (p : Program) (d b : Label) : Prop := ∀ past, p.Walk past b → d ∈ b :: past

/-- The site dominates position `k` of block `b`.  Parameters are set on entry, and phis ahead
of all instructions of their block. -/
def Precedes (p : Program) : DefSite → Label → Nat → Prop
  | .entry, _, _ => True
  | .phi c _, b, _ => p.Dominates c b
  | .instr c j, b, k => if c = b then j < k else p.Dominates c b

/-- Every read in a block that control may come to is dominated by the definition of what is
read.  A phi reads an operand at the end of the block that the operand comes from. -/
structure Strict (p : Program) (n : Nat) : Prop where
  instr : ∀ b k i v, p.Reachable b → (p.body b)[k]? = some i → v ∈ i.reads →
    ∃ d, p.Defines n d v ∧ p.Precedes d b k
  phi : ∀ s b φ v, p.Reachable s → φ ∈ p.phis b → ⟨s, v⟩ ∈ φ.args →
    ∃ d, p.Defines n d v ∧ p.Precedes d s (p.body s).length

variable {p q : Program} {n : Nat}

/-- The site was passed on the way to position `k` of block `b`. -/
def Passed (past : List Label) (b : Label) (k : Nat) : DefSite → Prop
  | .entry => True
  | .phi c _ => c ∈ b :: past
  | .instr c j => c ∈ past ∨ c = b ∧ j < k

theorem Precedes.passed {d : DefSite} {past : List Label} {b : Label} {k : Nat}
    (h : p.Precedes d b k) (hw : p.Walk past b) : Passed past b k d := by
  cases d with
  | entry => exact trivial
  | phi c l => exact h past hw
  | instr c j =>
    rw [Precedes] at h
    split at h
    · next hc => exact .inr ⟨hc, h⟩
    · next hc =>
      rcases List.mem_cons.1 (h past hw) with heq | hmem
      · exact absurd heq hc
      · exact .inl hmem

/-- In a strict program what is live was set on every way to where it is. -/
theorem Strict.passed (h : p.Strict n) {b : Label} {k : Nat} {v : Var} (hv : p.Live b k v)
    {past : List Label} (hw : p.Walk past b) : ∃ d, p.Defines n d v ∧ Passed past b k d := by
  induction hv generalizing past with
  | read hi hread =>
    obtain ⟨d, hd, hprec⟩ := h.instr _ _ _ _ ⟨past, hw⟩ hi hread
    exact ⟨d, hd, hprec.passed hw⟩
  | @pass b k i v hi hdst _ ih =>
    obtain ⟨d, hd, hpassed⟩ := ih hw
    refine ⟨d, hd, ?_⟩
    cases d with
    | entry => exact trivial
    | phi c l => exact hpassed
    | instr c j =>
      refine hpassed.imp_right fun ⟨hc, hj⟩ => ⟨hc, Nat.lt_of_le_of_ne (Nat.le_of_lt_succ hj) ?_⟩
      -- the instruction passed over does not set the variable
      rintro rfl
      obtain ⟨i', hi', hset⟩ := hd
      rw [hc, hi] at hi'
      cases hi'
      exact hdst hset
  | @cross b s k v hk he hrec _ ih =>
    obtain ⟨d, hd, hpassed⟩ := ih (.step hw he)
    refine ⟨d, hd, ?_⟩
    cases d with
    | entry => exact trivial
    | phi c l =>
      rcases List.mem_cons.1 hpassed with rfl | hmem
      · exact absurd (List.mem_of_getElem? (defines_phi_iff.1 hd)) hrec
      · exact hmem
    | instr c j =>
      rcases hpassed with hmem | ⟨-, hj⟩
      · rcases List.mem_cons.1 hmem with rfl | hmem
        · obtain ⟨i, hi, -⟩ := hd
          exact .inr ⟨rfl, hk ▸ (List.getElem?_eq_some_iff.1 hi).1⟩
        · exact .inl hmem
      · exact absurd hj (Nat.not_lt_zero _)
  | @arrive b s k φ v hk he hφ ha =>
    obtain ⟨d, hd, hprec⟩ := h.phi b s φ v ⟨past, hw⟩ hφ ha
    exact ⟨d, hd, hk ▸ hprec.passed hw⟩

/-- Only parameters are live on entry to a strict program. -/
theorem Strict.entered (h : p.Strict n) (hp : p.WellFormed n) : p.Entered n := by
  intro v hv
  obtain ⟨d, hd, hpassed⟩ := h.passed hv .start
  cases d with
  | entry => exact hd
  | phi c l =>
    obtain rfl := List.mem_singleton.1 hpassed
    obtain ⟨φ, hφ, -⟩ := hd
    rw [hp.entry_phis] at hφ
    cases hφ
  | instr c j =>
    rcases hpassed with hmem | ⟨-, hj⟩
    · exact absurd hmem List.not_mem_nil
    · exact absurd hj (Nat.not_lt_zero _)

/-! ### Variables live at one point -/

/-- Walking back to the top of a block, two variables that are live clash or were so there. -/
theorem clash_or_live {b : Label} {k : Nat} {u v : Var} (hu : p.Live b k u) (hv : p.Live b k v) :
    (p.Clash n u v ∨ p.Clash n v u) ∨ p.Live b 0 u ∧ p.Live b 0 v := by
  induction k with
  | zero => exact .inr ⟨hu, hv⟩
  | succ k ih =>
    have hlt : k < (p.body b).length := hu.le_length
    have hi := List.getElem?_eq_getElem hlt
    by_cases hdu : ((p.body b)[k]).dst? = some u
    · exact .inl (.inl (.instr hi hdu hv))
    · by_cases hdv : ((p.body b)[k]).dst? = some v
      · exact .inl (.inr (.instr hi hdv hu))
      · exact ih (.pass hi hdu hu) (.pass hi hdv hv)

/-- **Two variables that are live at one point clash.** -/
theorem Entered.clash_of_live (h : p.Entered n) {past : List Label} {b : Label}
    (hw : p.Walk past b) {k : Nat} {u v : Var} (hu : p.Live b k u) (hv : p.Live b k v) :
    p.Clash n u v ∨ p.Clash n v u := by
  induction hw generalizing k with
  | start =>
    rcases clash_or_live hu hv with hclash | ⟨hu, hv⟩
    · exact hclash
    · exact .inl (.params (h u hu) (h v hv))
  | @step past b s _ he ih =>
    rcases clash_or_live hu hv with hclash | ⟨hu, hv⟩
    · exact hclash
    · by_cases hru : u ∈ p.receivers s
      · obtain ⟨φ, hφ, rfl⟩ := mem_receivers.1 hru
        exact .inl (.phi hφ hv)
      · by_cases hrv : v ∈ p.receivers s
        · obtain ⟨φ, hφ, rfl⟩ := mem_receivers.1 hrv
          exact .inr (.phi hφ hu)
        · exact ih (.cross rfl he hru hu) (.cross rfl he hrv hv)

/-! ### Programs with the same blocks -/

theorem Live.setRegisters {registers : List Nat} {b : Label} {k : Nat} {v : Var}
    (h : (q.setRegisters registers).Live b k v) : q.Live b k v := by
  induction h with
  | read hi hv => exact .read hi hv
  | pass hi hd _ ih => exact .pass hi hd ih
  | cross hk he hr _ ih => exact .cross hk he hr ih
  | arrive hk he hφ ha => exact .arrive hk he hφ ha

theorem Walk.setRegisters {registers : List Nat} {past : List Label} {b : Label}
    (h : (q.setRegisters registers).Walk past b) : q.Walk past b := by
  induction h with
  | start => exact .start
  | step _ he ih => exact .step ih he

/-- **Variables that are live together are in different registers.**  In the output for a strict
program, with its phis put back, this holds at every position of every block that control may
come to, the end of the block and the operands of the phis that follow included. -/
theorem allocate_apart (p : Program) (hp : p.Indexed) (n : Nat) (hcheck : p.check n = .ok ())
    (hstrict : p.Strict n) (o : Options) (a : Allocation)
    (ha : (p.allocate o n).result = .ok a) :
    ∃ r, (p.allocate o n).program.restorePhis a.phis = .ok r ∧
      ∀ b k u v, r.Reachable b → u ≠ v → r.Live b k u → r.Live b k v →
        ∃ x y, r.register? u = some x ∧ r.register? v = some y ∧ x ≠ y := by
  have hwell := wellFormed_of_check hp hcheck
  obtain ⟨a', out, q, ha', hrun⟩ := allocate_ok hp hcheck o.merge
  obtain ⟨hresult, hprogram⟩ := hrun o rfl
  obtain rfl : a' = a := by
    rw [hresult] at ha
    exact Except.ok.inj ha
  have hq := ha'.refines.wellFormed
  rw [hprogram]
  refine ⟨_, ha'.restorePhis, fun b k u v hb huv hu hv => ?_⟩
  obtain ⟨past, hw⟩ := hb
  have hregister : ∀ {v}, q.Live b k v →
      (q.setRegisters a'.registers).register? v = some (out.home v) := by
    intro v hv
    obtain ⟨r, hr⟩ := Option.isSome_iff_exists.1
      (ha'.isSome_register? (ha'.size.symm ▸ hq.reads_lt hv.reads))
    rw [register?_setRegisters hq _ ha'.length, ← ha'.register?, home, hr]
    rfl
  refine ⟨_, _, hregister hu.setRegisters, hregister hv.setRegisters, ?_⟩
  rcases (ha'.refines.entered (hstrict.entered hwell)).clash_of_live hw.setRegisters
    hu.setRegisters hv.setRegisters with hclash | hclash
  · exact ha'.housed.clash u v huv hclash
  · exact (ha'.housed.clash v u (Ne.symm huv) hclash).symm

/-- Only the loop leads to the last block. -/
theorem dominates_countUp : countUp.Dominates 1 2 := by
  intro past hw
  cases hw with
  | @step past b _ _ he =>
    have hb : b = 1 := by
      have hmem := he.1
      rcases b with - | - | - | b
      · exact absurd hmem (by decide)
      · rfl
      · exact absurd hmem (by decide)
      · exact absurd hmem List.not_mem_nil
    rw [hb]
    exact List.mem_cons_of_mem _ List.mem_cons_self

theorem strict_countUp : countUp.Strict 0 := by
  constructor
  · intro b k i v _ hi hv
    rcases b with - | - | - | b
    · rcases k with - | - | k <;> cases hi <;> cases hv
    · rcases k with - | - | k
      · cases hi
        rcases List.mem_cons.1 hv with rfl | hv
        · exact ⟨.phi 1 0, ⟨_, rfl, rfl⟩, fun _ _ => List.mem_cons_self⟩
        · exact ⟨.entry, Nat.le_of_eq (List.mem_singleton.1 hv), trivial⟩
      · cases hi
        rw [List.mem_singleton.1 hv]
        exact ⟨.instr 1 0, ⟨_, rfl, rfl⟩, Nat.one_pos⟩
      · cases hi
    · rcases k with - | k
      · cases hi
        rw [List.mem_singleton.1 hv]
        exact ⟨.instr 1 0, ⟨_, rfl, rfl⟩, dominates_countUp⟩
      · cases hi
    · cases hi
  · intro s b φ v _ hφ ha
    rcases b with - | - | - | b
    · cases hφ
    · obtain rfl := List.mem_singleton.1 hφ
      rcases List.mem_cons.1 ha with ha | ha
      · cases ha
        exact ⟨.instr 0 0, ⟨_, rfl, rfl⟩, Nat.two_pos⟩
      · cases List.mem_singleton.1 ha
        exact ⟨.instr 1 0, ⟨_, rfl, rfl⟩, Nat.two_pos⟩
    · cases hφ
    · cases hφ

theorem allocate_apart_countUp : countUp.check 0 = .ok () ∧ countUp.Strict 0 ∧
    ∃ a r, (countUp.allocate {} 0).result = .ok a ∧
      (countUp.allocate {} 0).program.restorePhis a.phis = .ok r ∧
      ∀ b k u v, r.Reachable b → u ≠ v → r.Live b k u → r.Live b k v →
        ∃ x y, r.register? u = some x ∧ r.register? v = some y ∧ x ≠ y := by
  have hcheck : countUp.check 0 = .ok () := by decide +kernel
  obtain ⟨a, out, q, -, hrun⟩ := allocate_ok indexed_countUp hcheck true
  have ha := (hrun {} rfl).1
  obtain ⟨r, hr, hapart⟩ :=
    allocate_apart countUp indexed_countUp 0 hcheck strict_countUp {} a ha
  exact ⟨hcheck, strict_countUp, a, r, ha, hr, hapart⟩

end Program

end ChordalAlloc
