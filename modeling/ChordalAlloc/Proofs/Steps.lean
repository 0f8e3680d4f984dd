/-
ChordalAlloc/Proofs/Steps.lean

What one block of a run depends on and what it does.

An instruction depends on the variables it reads and on the calls made
before.  The phis of a block give every receiver the value its operand had
before all of them, provided that the receivers differ.  In a well-formed
program the receivers do differ, every phi has an operand for the block that
control comes from, and control goes along edges (`WellFormed.edge_of_exit`).
-/
import ChordalAlloc.Proofs.Execution
import ChordalAlloc.Proofs.WellFormed

namespace ChordalAlloc

/-! ### What an instruction sees of the memory -/

namespace Instr

variable {i : Instr} {r r' : Var → Int64}

theorem value_congr (h : ∀ v ∈ i.reads, r v = r' v) (w : World) (cs : List Call) :
    i.value w r cs = i.value w r' cs := by
  cases i with
  | copy d s => exact h s List.mem_cons_self
  | binary op d a b =>
    show op.eval (r a) (r b) = op.eval (r' a) (r' b)
    rw [h a List.mem_cons_self, h b (List.mem_cons_of_mem a List.mem_cons_self)]
  | call d f args =>
    show w.answer f (args.map r) cs = w.answer f (args.map r') cs
    rw [show args.map r = args.map r' from List.map_congr_left h]
  | _ => rfl

theorem callsMade_congr (h : ∀ v ∈ i.reads, r v = r' v) : i.callsMade r = i.callsMade r' := by
  cases i with
  | call d f args =>
    show [Call.mk f (args.map r)] = [Call.mk f (args.map r')]
    rw [show args.map r = args.map r' from List.map_congr_left h]
  | _ => rfl

theorem exit_congr (h : ∀ v ∈ i.reads, r v = r' v) : i.exit r = i.exit r' := by
  cases i with
  | branch c t e =>
    show Exit.goto (if r c ≠ 0 then t else e) = Exit.goto (if r' c ≠ 0 then t else e)
    rw [h c List.mem_cons_self]
  | switch s ts d =>
    show Exit.goto (if r s < 0 then d else ts.getD (r s).toNatClampNeg d)
      = Exit.goto (if r' s < 0 then d else ts.getD (r' s).toNatClampNeg d)
    rw [h s List.mem_cons_self]
  | ret v =>
    cases v with
    | none => rfl
    | some v =>
      show Exit.leave (.returned (some (r v))) = Exit.leave (.returned (some (r' v)))
      rw [h v List.mem_cons_self]
  | raise v =>
    show Exit.leave (.raised (r v)) = Exit.leave (.raised (r' v))
    rw [h v List.mem_cons_self]
  | _ => rfl

/-- A terminator goes where it says. -/
theorem mem_targets_of_exit {t : Label} (h : i.exit r = .goto t) : t ∈ i.targets := by
  cases i with
  | jump u =>
    cases h
    exact List.mem_cons_self
  | branch c u e =>
    have hu : (if r c ≠ 0 then u else e) = t := by injection h
    rw [← hu]
    split
    · exact List.mem_cons_self
    · exact List.mem_cons_of_mem u List.mem_cons_self
  | switch s ts d =>
    have hu : (if r s < 0 then d else ts.getD (r s).toNatClampNeg d) = t := by injection h
    have hlast : d ∈ ts ++ [d] := List.mem_append_right ts List.mem_cons_self
    rw [← hu]
    split
    · exact hlast
    · rw [List.getD_eq_getElem?_getD]
      rcases hget : ts[(r s).toNatClampNeg]? with - | u
      · exact hlast
      · exact List.mem_append_left _ (List.mem_of_getElem? hget)
  | _ => cases h

theorem dst?_eq_none (h : i.isTerminator = true) : i.dst? = none := by
  cases i with
  | const _ _ | copy _ _ | binary _ _ _ _ | call _ _ _ => cases h
  | _ => rfl

end Instr

/-! ### What the phis of a block do to the variables -/

section EnterPhis

variable {phis : List Phi} {s : Label} {m : Memory} {v : Var}

theorem write_of_ne {φ : Phi} (hv : v ≠ φ.dst) (cells : Nat → Int64) :
    φ.write id s m cells v = cells v := by
  unfold Phi.write
  cases φ.argFrom? s with
  | none => rfl
  | some a => exact Function.update_of_ne hv _ _

theorem foldl_write_of_notMem (hv : v ∉ phis.map (·.dst)) (cells : Nat → Int64) :
    phis.foldl (Phi.write id s m) cells v = cells v := by
  induction phis generalizing cells with
  | nil => rfl
  | cons φ phis ih =>
    rw [List.map_cons, List.mem_cons, not_or] at hv
    rw [List.foldl_cons, ih hv.2, write_of_ne hv.1]

/-- A variable that no phi sets keeps its value. -/
theorem enterPhis_of_notMem (hv : v ∉ phis.map (·.dst)) :
    (enterPhis id phis s m).cells v = m.cells v :=
  foldl_write_of_notMem hv m.cells

/-- A variable that one phi sets takes the value of the operand, as it was before all phis. -/
theorem enterPhis_of_mem {φ : Phi} {a : PhiArg} (hnd : (phis.map (·.dst)).Nodup) (hφ : φ ∈ phis)
    (ha : φ.argFrom? s = some a) :
    (enterPhis id phis s m).cells φ.dst = m.cells a.value := by
  obtain ⟨front, back, rfl⟩ := List.append_of_mem hφ
  rw [List.map_append, List.map_cons, List.nodup_append, List.nodup_cons] at hnd
  show (front ++ φ :: back).foldl (Phi.write id s m) m.cells φ.dst = m.cells a.value
  rw [List.foldl_append, List.foldl_cons, foldl_write_of_notMem hnd.2.1.1, Phi.write, ha]
  exact Function.update_self _ _ _

end EnterPhis

namespace Program

/-- The memory after the phis of a block. -/
def enter (p : Program) (home : Var → Nat) (source : Option Label) (b : Label) (m : Memory) :
    Memory :=
  match source with
  | some s => enterPhis home (p.phis b) s m
  | none => m

theorem step_running {p : Program} {w : World} {home : Var → Nat} {source : Option Label}
    {b : Label} {m : Memory} (hb : b < p.blocks.size) :
    p.step w home (.running source b m)
      = .after b (runBody w home (p.body b) (p.enter home source b m)) := by
  obtain ⟨block, h⟩ := exists_block hb
  simp only [step, h, body_of h]
  cases source with
  | none => rfl
  | some s =>
    show Config.after b (runBody w home block.body (enterPhis home block.phis s m)) = _
    rw [enter, phis_of h]

namespace WellFormed

variable {p : Program} {n : Nat} {b s : Label} {φ : Phi}

theorem nodup_receivers (h : p.WellFormed n) (b : Label) : (p.receivers b).Nodup := by
  rw [List.nodup_iff_getElem?_ne_getElem?]
  intro j k hjk hk heq
  rw [receivers, List.getElem?_map, List.getElem?_map] at heq
  rw [receivers, List.length_map] at hk
  rw [List.getElem?_eq_getElem hk, List.getElem?_eq_getElem (Nat.lt_trans hjk hk)] at heq
  have hsites := h.once (.phi b j) (.phi b k) _
    ⟨_, List.getElem?_eq_getElem (Nat.lt_trans hjk hk), Option.some.inj heq⟩
    ⟨_, List.getElem?_eq_getElem hk, rfl⟩
  injection hsites with _ hsites
  exact absurd hsites (Nat.ne_of_lt hjk)

/-- A phi has an entry for every block that control may come from. -/
theorem exists_argFrom (h : p.WellFormed n) (hφ : φ ∈ p.phis b) (he : p.Edge s b) :
    ∃ v, φ.argFrom? s = some ⟨s, v⟩ ∧ ⟨s, v⟩ ∈ φ.args := by
  obtain ⟨-, hsources⟩ := h.phi_args b φ hφ
  obtain ⟨a, ha, hs⟩ := List.mem_map.1 ((hsources s).2 he)
  rcases hfind : φ.argFrom? s with - | ⟨src, v⟩
  · have hnone := List.find?_eq_none.1 hfind a ha
    exact absurd (beq_iff_eq.2 hs) hnone
  · have hsome := List.find?_some hfind
    obtain rfl : src = s := beq_iff_eq.1 hsome
    exact ⟨v, rfl, List.mem_of_find?_eq_some hfind⟩

/-- Control leaves a block only at its end. -/
theorem length_of_terminator (h : p.WellFormed n) {k : Nat} {i : Instr}
    (hi : (p.body b)[k]? = some i) (ht : i.isTerminator = true) : k + 1 = (p.body b).length := by
  obtain ⟨init, t, hbody, -, hinit⟩ := h.closed b (lt_size_of_body hi)
  have hlt := (List.getElem?_eq_some_iff.1 hi).1
  rw [hbody, List.length_append, List.length_singleton] at hlt ⊢
  by_contra hne
  have hk : k < init.length := by omega
  rw [hbody, List.getElem?_append_left hk] at hi
  rw [hinit i (List.mem_of_getElem? hi)] at ht
  cases ht

/-- Control goes along edges. -/
theorem edge_of_exit (h : p.WellFormed n) {k : Nat} {i : Instr} {r : Var → Int64} {t : Label}
    (hi : (p.body b)[k]? = some i) (ht : i.isTerminator = true) (hexit : i.exit r = .goto t) :
    p.Edge b t := by
  have hlast : (p.body b).getLast? = some i := by
    rw [List.getLast?_eq_getElem?, ← h.length_of_terminator hi ht]
    exact hi
  have hmem : t ∈ p.targets b := by
    rw [targets, hlast]
    exact Instr.mem_targets_of_exit hexit
  exact ⟨hmem, h.targets_lt b t hmem⟩

/-- However a run goes through a block, it leaves along an edge or for good. -/
theorem edge_of_runBody (h : p.WellFormed n) {w : World} {m : Memory} (t : Label)
    (ht : (runBody w id (p.body b) m).2 = .goto t) : p.Edge b t := by
  have key : ∀ (is : List Instr) (k : Nat) (m : Memory), (p.body b).drop k = is →
      (runBody w id is m).2 = .goto t → p.Edge b t := by
    intro is
    induction is with
    | nil =>
      intro k m _ hexit
      cases hexit
    | cons i is ih =>
      intro k m hdrop hexit
      have hi : (p.body b)[k]? = some i := by
        rw [← List.head?_drop, hdrop, List.head?_cons]
      rw [runBody] at hexit
      split at hexit
      · next hterm => exact h.edge_of_exit hi hterm hexit
      · refine ih (k + 1) _ ?_ hexit
        rw [← List.tail_drop, hdrop, List.tail_cons]
  exact key (p.body b) 0 m List.drop_zero ht

end WellFormed

end Program

end ChordalAlloc
