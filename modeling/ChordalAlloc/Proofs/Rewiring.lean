/-
ChordalAlloc/Proofs/Rewiring.lean

A phi that reads another variable.

`Program.Rewires` says of two programs that their phis are the same, but for
one operand: what comes from `loc` was `x` in the old program and is `y` in
the new one.  Both ways of the lowering do this: when a copy is put in, the
phi is made to read the copy, and when the copy is dropped, the phi reads
again what was copied.
-/
import ChordalAlloc.Proofs.WellFormed

namespace ChordalAlloc

namespace Program

/-- A phi has one operand per source. -/
theorem WellFormed.arg_unique {p : Program} {n : Nat} (h : p.WellFormed n) {b s : Label} {φ : Phi}
    {x y : Var} (hφ : φ ∈ p.phis b) (hx : ⟨s, x⟩ ∈ φ.args) (hy : ⟨s, y⟩ ∈ φ.args) : x = y := by
  have heq := List.inj_on_of_nodup_map (h.phi_args b φ hφ).1 hx hy rfl
  injection heq

/-- The phis of `p'` are those of `p`, with `y` for `x` in entry `j` of phi `k` of block `b`. -/
structure Rewires (p p' : Program) (b : Label) (k j : Nat) (loc : Label) (x y : Var) : Prop where
  arg : p.phiArg? b k j = some ⟨loc, x⟩
  phis_target : p'.phis b =
    (p.phis b).modify k fun φ => { φ with args := φ.args.set j ⟨loc, y⟩ }
  phis_other : ∀ c, c ≠ b → p'.phis c = p.phis c

namespace Rewires

variable {p p' : Program} {n : Nat} {b : Label} {k j : Nat} {loc : Label} {x y : Var}

theorem site (hr : Rewires p p' b k j loc x y) :
    ∃ φ, (p.phis b)[k]? = some φ ∧ φ.args[j]? = some ⟨loc, x⟩ := by
  have harg := hr.arg
  rw [phiArg?_eq] at harg
  exact Option.bind_eq_some_iff.1 harg

theorem edge (hr : Rewires p p' b k j loc x y) (h : p.WellFormed n) : p.Edge loc b := by
  obtain ⟨φ, hφ, harg⟩ := hr.site
  exact ((h.phi_args b φ (List.mem_of_getElem? hφ)).2 loc).1
    (List.mem_map.2 ⟨_, List.mem_of_getElem? harg, rfl⟩)

theorem reads_operand (hr : Rewires p p' b k j loc x y) : p.Reads x := by
  obtain ⟨φ, hφ, harg⟩ := hr.site
  exact .inr ⟨b, φ, List.mem_of_getElem? hφ, List.mem_map.2 ⟨_, List.mem_of_getElem? harg, rfl⟩⟩

/-- A phi of the new program comes from one of the old: sources are the same, and so are
values, except where the new operand stands for the old one. -/
theorem phi_of (hr : Rewires p p' b k j loc x y) {c : Label} {l : Nat} {φ' : Phi}
    (hφ' : (p'.phis c)[l]? = some φ') :
    ∃ φ, (p.phis c)[l]? = some φ ∧ φ'.dst = φ.dst ∧
      φ'.args.map (·.source) = φ.args.map (·.source) ∧
      ∀ s z', ⟨s, z'⟩ ∈ φ'.args → ∃ z, ⟨s, z⟩ ∈ φ.args ∧
        (z' = z ∨ c = b ∧ s = loc ∧ z = x ∧ z' = y) := by
  by_cases hcb : c = b
  swap
  · rw [hr.phis_other c hcb] at hφ'
    exact ⟨φ', hφ', rfl, rfl, fun s z' hz => ⟨z', hz, .inl rfl⟩⟩
  subst hcb
  rw [hr.phis_target, List.getElem?_modify, Option.map_eq_map, Option.map_eq_some_iff] at hφ'
  obtain ⟨φ, hφ, rfl⟩ := hφ'
  refine ⟨φ, hφ, ?_⟩
  split
  · next hkl =>
    subst hkl
    obtain ⟨ψ, hψ, harg⟩ := hr.site
    cases hφ.symm.trans hψ
    refine ⟨rfl, ?_, fun s z' hz => ?_⟩
    · show (φ.args.set j ⟨loc, y⟩).map (·.source) = φ.args.map (·.source)
      apply List.ext_getElem?
      intro l
      rw [List.getElem?_map, List.getElem?_map, List.getElem?_set]
      split
      · next hjl =>
        subst hjl
        rw [if_pos (List.getElem?_eq_some_iff.1 harg).1, harg]
        rfl
      · rfl
    · rcases List.mem_or_eq_of_mem_set hz with hz | hz
      · exact ⟨z', hz, .inl rfl⟩
      · injection hz with hs hz
        exact ⟨x, hs ▸ List.mem_of_getElem? harg, .inr ⟨rfl, hs, rfl, hz⟩⟩
  · exact ⟨rfl, rfl, fun s z' hz => ⟨z', hz, .inl rfl⟩⟩

theorem phiArg? (hr : Rewires p p' b k j loc x y) (c : Label) (l m : Nat) :
    p'.phiArg? c l m =
      if c = b ∧ l = k ∧ m = j then some ⟨loc, y⟩ else p.phiArg? c l m :=
  phiArg?_of_set hr.arg hr.phis_target hr.phis_other c l m

theorem receivers (hr : Rewires p p' b k j loc x y) (c : Label) :
    p'.receivers c = p.receivers c := by
  by_cases hcb : c = b
  · subst hcb
    rw [Program.receivers, hr.phis_target]
    apply List.ext_getElem?
    intro l
    rw [List.getElem?_map, List.getElem?_modify, Option.map_eq_map, Option.map_map,
      Program.receivers, List.getElem?_map]
    congr 1
    funext φ
    show Phi.dst (if k = l then _ else φ) = φ.dst
    split <;> rfl
  · rw [Program.receivers, hr.phis_other c hcb]
    rfl

/-! ### What well-formed programs ask of phis -/

theorem entry_phis (hr : Rewires p p' b k j loc x y) (h : p.WellFormed n) : p'.phis 0 = [] := by
  have hrec := hr.receivers 0
  rw [Program.receivers, Program.receivers, h.entry_phis, List.map_nil,
    List.map_eq_nil_iff] at hrec
  exact hrec

theorem phi_args (hr : Rewires p p' b k j loc x y) (h : p.WellFormed n)
    (hedge : ∀ {c d}, p'.Edge c d ↔ p.Edge c d) (c : Label) (φ' : Phi) (hφ' : φ' ∈ p'.phis c) :
    (φ'.args.map (·.source)).Nodup ∧ ∀ a, a ∈ φ'.args.map (·.source) ↔ p'.Edge a c := by
  obtain ⟨l, hl⟩ := List.mem_iff_getElem?.1 hφ'
  obtain ⟨φ, hφ, -, hsources, -⟩ := hr.phi_of hl
  obtain ⟨hnd, hmem⟩ := h.phi_args c φ (List.mem_of_getElem? hφ)
  rw [hsources]
  exact ⟨hnd, fun a => (hmem a).trans hedge.symm⟩

end Rewires

end Program

end ChordalAlloc
