/-
ChordalAlloc/Proofs/DroppedCopy.lean

Taking out a recorded copy.

`Program.CopyDropped` describes the result part by part: a `nop` stands where
the copy was, and the operand that was the target of the copy is what was
copied.  The new program is the old one trimmed, so both behave alike, and
the other records stay true (`Staged.drop`).

Dropping a copy keeps its source alive for longer: between the place of the
copy and the end of the block the source is live now, where it was the
target before (`CopyDropped.live`).  So what clashes with the source in the
new program did clash with it or with the target in the old one
(`CopyDropped.clash`).
-/
import ChordalAlloc.Proofs.Interference
import ChordalAlloc.Proofs.Records

namespace ChordalAlloc

namespace Program

/-- The program `q'` is `q` without the copy `c`. -/
structure CopyDropped (q q' : Program) (c : EdgeCopy) : Prop extends
    Rewires q q' c.site.block c.site.phi c.site.arg c.location c.dst c.value where
  vars : q'.vars = q.vars
  size : q'.blocks.size = q.blocks.size
  indexed : q.Indexed → q'.Indexed
  body_location : q'.body c.location = (q.body c.location).set c.index .nop
  body_other : ∀ b, b ≠ c.location → q'.body b = q.body b

variable {q q' : Program} {n : Nat} {cs : List EdgeCopy} {c : EdgeCopy}

/-- What is copied is not the target. -/
theorem Recorded.ne (h : q.Recorded cs c) : c.value ≠ c.dst := fun heq =>
  h.instr_reads _ _ (List.mem_of_getElem? h.instr) (List.mem_singleton.2 heq.symm)

/-- The target is set in one place. -/
theorem Recorded.place (h : q.Recorded cs c) (hq : q.WellFormed n) {b : Label} {k : Nat}
    {i : Instr} (hi : (q.body b)[k]? = some i) (hd : i.dst? = some c.dst) :
    b = c.location ∧ k = c.index := by
  have hsite := hq.once (.instr b k) (.instr c.location c.index) c.dst ⟨i, hi, hd⟩
    ⟨_, h.instr, rfl⟩
  injection hsite with hb hk
  exact ⟨hb, hk⟩

/-- No copy is behind another that it would spoil. -/
theorem Recorded.settled (h : q.Recorded cs c) (hq : q.WellFormed n)
    (hall : ∀ c ∈ cs, q.Recorded cs c) : Settled (q.body c.location) c.dst c.value := by
  obtain ⟨init, t, hbody, -, hinit⟩ := hq.closed c.location h.lt_size
  have hlt : c.index < (q.body c.location).length := (List.getElem?_eq_some_iff.1 h.instr).1
  have hget : (q.body c.location)[c.index] = .copy c.dst c.value :=
    (List.getElem?_eq_some_iff.1 h.instr).2
  refine ⟨(q.body c.location).take c.index, (q.body c.location).drop (c.index + 1), ?_, h.ne.symm,
    fun i hi => ?_, fun i hi => ?_⟩
  · rw [← hget, ← List.drop_eq_getElem_cons hlt, List.take_append_drop]
  · rw [hbody, List.take_append_of_le_length (Nat.le_of_lt (h.index_lt hbody))] at hi
    exact hinit i (List.mem_of_mem_take hi)
  · obtain ⟨k, hk⟩ := List.mem_iff_getElem?.1 hi
    rw [List.getElem?_drop] at hk
    refine ⟨fun hd => ?_, fun hd => ?_⟩
    · have := (h.place hq hk hd).2
      omega
    · rcases h.after _ i (by omega) hk with rfl | rfl | ⟨c', hc', rfl, -⟩
      · cases hd
      · cases hd
      · injection hd with hd
        exact (hall c' hc').instr_reads _ _ (List.mem_of_getElem? h.instr)
          (List.mem_singleton.2 hd)

namespace CopyDropped

/-! ### What the parts look like -/

theorem length_body (hd : CopyDropped q q' c) (b : Label) :
    (q'.body b).length = (q.body b).length := by
  by_cases hb : b = c.location
  · rw [hb, hd.body_location, List.length_set]
  · rw [hd.body_other b hb]

theorem getElem?_body (hd : CopyDropped q q' c) (h : q.Recorded cs c) (b : Label) (k : Nat) :
    (q'.body b)[k]? =
      if b = c.location ∧ k = c.index then some .nop else (q.body b)[k]? := by
  by_cases hb : b = c.location
  · rw [hb, hd.body_location, List.getElem?_set]
    by_cases hk : k = c.index
    · rw [if_pos hk.symm, if_pos (List.getElem?_eq_some_iff.1 h.instr).1, if_pos ⟨rfl, hk⟩]
    · rw [if_neg (Ne.symm hk), if_neg fun hbk => hk hbk.2]
  · rw [hd.body_other b hb, if_neg fun hbk => hb hbk.1]

/-- An instruction of the new program is an old one, or the `nop` for the copy. -/
theorem instr_cases (hd : CopyDropped q q' c) (h : q.Recorded cs c) {b : Label} {k : Nat}
    {i : Instr} (hi : (q'.body b)[k]? = some i) :
    (b = c.location ∧ k = c.index) ∧ i = .nop ∨
      ¬(b = c.location ∧ k = c.index) ∧ (q.body b)[k]? = some i := by
  rw [hd.getElem?_body h] at hi
  split at hi
  · next hbk => exact .inl ⟨hbk, (Option.some.inj hi).symm⟩
  · next hbk => exact .inr ⟨hbk, hi⟩

theorem getLast?_body (hd : CopyDropped q q' c) (h : q.Recorded cs c) (b : Label) :
    (q'.body b).getLast? = (q.body b).getLast? := by
  rw [List.getLast?_eq_getElem?, List.getLast?_eq_getElem?, hd.length_body, hd.getElem?_body h,
    if_neg]
  rintro ⟨rfl, hk⟩
  have hlast := h.last
  rw [List.getLast?_eq_getElem?, hk, h.instr] at hlast
  cases hlast

theorem targets (hd : CopyDropped q q' c) (h : q.Recorded cs c) (b : Label) :
    q'.targets b = q.targets b := by
  rw [Program.targets, Program.targets, hd.getLast?_body h]

theorem edge_iff (hd : CopyDropped q q' c) (h : q.Recorded cs c) {a b : Label} :
    q'.Edge a b ↔ q.Edge a b := by
  rw [Edge, Edge, hd.targets h, hd.size]

/-! ### The program stays well formed -/

theorem defines_iff (hd : CopyDropped q q' c) (h : q.Recorded cs c) {d : DefSite} {v : Var} :
    q'.Defines n d v ↔ q.Defines n d v ∧ d ≠ .instr c.location c.index := by
  cases d with
  | entry => exact ⟨fun hv => ⟨hv, by rintro ⟨⟩⟩, And.left⟩
  | phi b k =>
    rw [defines_phi_iff, defines_phi_iff, hd.receivers]
    exact ⟨fun hv => ⟨hv, by rintro ⟨⟩⟩, And.left⟩
  | instr b k =>
    rw [Ne, DefSite.instr.injEq]
    constructor
    · rintro ⟨i, hi, hv⟩
      rcases hd.instr_cases h hi with ⟨-, rfl⟩ | ⟨hbk, hold⟩
      · cases hv
      · exact ⟨⟨i, hold, hv⟩, hbk⟩
    · rintro ⟨⟨i, hi, hv⟩, hbk⟩
      refine ⟨i, ?_, hv⟩
      rw [hd.getElem?_body h, if_neg hbk, hi]

/-- Nothing reads the target any more. -/
theorem reads (hd : CopyDropped q q' c) (h : q.Recorded cs c) {v : Var} (hv : q'.Reads v) :
    q.Reads v ∧ v ≠ c.dst := by
  rcases hv with ⟨b, i, hi, hv⟩ | ⟨b, φ, hφ, hv⟩
  · obtain ⟨k, hk⟩ := List.mem_iff_getElem?.1 hi
    rcases hd.instr_cases h hk with ⟨-, rfl⟩ | ⟨-, hold⟩
    · exact absurd hv List.not_mem_nil
    · have hmem := List.mem_of_getElem? hold
      refine ⟨.inl ⟨b, i, hmem, hv⟩, ?_⟩
      rintro rfl
      exact h.instr_reads b i hmem hv
  · obtain ⟨a, ha, rfl⟩ := List.mem_map.1 hv
    obtain ⟨s, -, hs⟩ := exists_site hφ ha
    rw [hd.argAt?] at hs
    split at hs
    · cases hs
      exact ⟨.inl ⟨_, _, List.mem_of_getElem? h.instr, List.mem_singleton.2 rfl⟩, h.ne⟩
    · next hne =>
      refine ⟨?_, fun heq => hne (h.phi_reads s a hs heq)⟩
      obtain ⟨ψ, hψ, ha⟩ := phi_of_site hs
      exact .inr ⟨_, ψ, List.mem_of_getElem? hψ, List.mem_map.2 ⟨a, List.mem_of_getElem? ha, rfl⟩⟩

theorem wellFormed (hd : CopyDropped q q' c) (h : q.Recorded cs c) (hq : q.WellFormed n) :
    q'.WellFormed n where
  indexed := hd.indexed hq.indexed
  entry := hd.size ▸ hq.entry
  params := hd.vars ▸ hq.params
  slots i v hv := by
    rw [hd.vars] at hv
    exact hq.slots i v hv
  closed b hb := by
    rw [hd.size] at hb
    obtain ⟨init, t, hbody, ht, hinit⟩ := hq.closed b hb
    by_cases hbl : b = c.location
    · subst hbl
      refine ⟨init.set c.index .nop, t, ?_, ht, fun i hi => ?_⟩
      · rw [hd.body_location, hbody, List.set_append_left _ _ (h.index_lt hbody)]
      · rcases List.mem_or_eq_of_mem_set hi with hi | rfl
        · exact hinit i hi
        · rfl
    · rw [hd.body_other b hbl]
      exact ⟨init, t, hbody, ht, hinit⟩
  targets_lt b t ht := by
    rw [hd.targets h] at ht
    rw [hd.size]
    exact hq.targets_lt b t ht
  defines_lt d v hv := by
    rw [hd.vars]
    exact hq.defines_lt d v ((hd.defines_iff h).1 hv).1
  once d d' v hv hv' :=
    hq.once d d' v ((hd.defines_iff h).1 hv).1 ((hd.defines_iff h).1 hv').1
  defined v hv := by
    obtain ⟨hold, hne⟩ := hd.reads h hv
    obtain ⟨d, hdef⟩ := hq.defined v hold
    refine ⟨d, (hd.defines_iff h).2 ⟨hdef, ?_⟩⟩
    rintro rfl
    obtain ⟨i, hi, hv⟩ := hdef
    rw [h.instr] at hi
    cases hi
    exact hne (Option.some.inj hv).symm
  entry_phis := hd.toRewires.entry_phis hq
  phi_args := hd.toRewires.phi_args hq (hd.edge_iff h)

/-! ### Nothing can be observed -/

theorem trims (hd : CopyDropped q q' c) (h : q.Recorded cs c) (hq : q.WellFormed n)
    (hall : ∀ c ∈ cs, q.Recorded cs c) : Trims (· = c.dst) q' q := by
  have hreads : ∀ b, ∀ i ∈ q.body b, ∀ v ∈ i.reads, ¬ v = c.dst := by
    rintro b i hi v hv rfl
    exact h.instr_reads b i hi hv
  refine ⟨hd.size, fun b => ?_, hd.receivers, fun s b k φ φ' x x' hφ hφ' hx hx' => ?_⟩
  · by_cases hb : b = c.location
    · obtain ⟨front, back, hbody, -⟩ := h.settled hq hall
      have hloc := hreads c.location
      have hcopy : (q.body c.location)[front.length]? = some (.copy c.dst c.value) := by
        rw [hbody, List.getElem?_append_right (Nat.le_refl _), Nat.sub_self]
        rfl
      have hindex : c.index = front.length := (h.place hq hcopy rfl).2.symm
      rw [hb, hd.body_location, hbody, hindex, List.set_append_right _ _ (Nat.le_refl _),
        Nat.sub_self, List.set_cons_zero]
      rw [hbody] at hloc
      refine (Trimmed.refl fun i hi => hloc i (List.mem_append_left _ hi)).append ?_
      refine .blank rfl (Trimmed.refl fun i hi => hloc i ?_)
      exact List.mem_append_right _ (List.mem_cons_of_mem _ hi)
    · rw [hd.body_other b hb]
      exact Trimmed.refl (hreads b)
  · have hmem := List.mem_of_getElem? hφ
    refine ⟨(hd.reads h (.inr ⟨b, φ, hmem, List.mem_map.2 ⟨_, hx, rfl⟩⟩)).2, ?_⟩
    obtain ⟨ψ, hψ, -, -, hargs⟩ := hd.phi_of hφ
    cases hφ'.symm.trans hψ
    have hmem' := List.mem_of_getElem? hφ'
    obtain ⟨z, hz, rfl | ⟨-, rfl, rfl, rfl⟩⟩ := hargs s x hx
    · exact .inl (hq.arg_unique hmem' hx' hz)
    · rw [hq.arg_unique hmem' hx' hz]
      exact .inr (h.settled hq hall)

/-! ### What becomes live -/

/-- Behind the place of the copy its source is live where the target was. -/
theorem live (hd : CopyDropped q q' c) (h : q.Recorded cs c) (hq : q.WellFormed n) {b : Label}
    {k : Nat} {v : Var} (hv : q'.Live b k v) :
    q.Live b k v ∨ b = c.location ∧ c.index < k ∧ v = c.value ∧ q.Live b k c.dst := by
  induction hv with
  | read hi hv =>
    rcases hd.instr_cases h hi with ⟨-, rfl⟩ | ⟨-, hold⟩
    · exact absurd hv List.not_mem_nil
    · exact .inl (.read hold hv)
  | @pass b k i v hi hdst hnext ih =>
    rcases hd.instr_cases h hi with ⟨⟨rfl, rfl⟩, rfl⟩ | ⟨hbk, hold⟩
    · -- the copy read its source, and nothing but its target was set
      rcases ih with hlive | ⟨-, -, rfl, -⟩
      · have hne := (hd.reads h hnext.reads).2
        refine .inl (.pass h.instr ?_ hlive)
        intro heq
        exact hne (Option.some.inj heq).symm
      · exact .inl (.read h.instr (List.mem_singleton.2 rfl))
    · rcases ih with hlive | ⟨rfl, hlt, rfl, hlive⟩
      · exact .inl (.pass hold hdst hlive)
      · have hne : k ≠ c.index := fun heq => hbk ⟨rfl, heq⟩
        refine .inr ⟨rfl, by omega, rfl, .pass hold ?_ hlive⟩
        intro heq
        exact hne (h.place hq hold heq).2
  | cross hk he hrec _ ih =>
    rw [hd.length_body] at hk
    rw [hd.receivers] at hrec
    rcases ih with hlive | ⟨-, hlt, -, -⟩
    · exact .inl (.cross hk ((hd.edge_iff h).1 he) hrec hlive)
    · exact absurd hlt (Nat.not_lt_zero _)
  | @arrive b s k φ' v hk he hφ' ha =>
    rw [hd.length_body] at hk
    obtain ⟨m, hm⟩ := List.mem_iff_getElem?.1 hφ'
    obtain ⟨φ, hφ, -, -, hargs⟩ := hd.phi_of hm
    have hφ := List.mem_of_getElem? hφ
    have he := (hd.edge_iff h).1 he
    obtain ⟨z, hz, rfl | ⟨-, rfl, rfl, rfl⟩⟩ := hargs b v ha
    · exact .inl (.arrive hk he hφ hz)
    · refine .inr ⟨rfl, ?_, rfl, .arrive hk he hφ hz⟩
      rw [hk]
      exact (List.getElem?_eq_some_iff.1 h.instr).1

theorem live_top (hd : CopyDropped q q' c) (h : q.Recorded cs c) (hq : q.WellFormed n) {b : Label}
    {v : Var} (hv : q'.Live b 0 v) : q.Live b 0 v := by
  rcases hd.live h hq hv with hlive | ⟨-, hlt, -, -⟩
  · exact hlive
  · exact absurd hlt (Nat.not_lt_zero _)

theorem refines (hd : CopyDropped q q' c) (h : q.Recorded cs c) (hq : q.WellFormed n)
    (hall : ∀ c ∈ cs, q.Recorded cs c) : Refines n q q' where
  wellFormed := hd.wellFormed h hq
  behavior w args :=
    ((hd.trims h hq hall).sameBehavior (hd.wellFormed h hq) hq w args).symm
  entered he v hv := he v (hd.live_top h hq hv)

/-- What clashes with the source of the copy did clash with it or with the target. -/
theorem clash (hd : CopyDropped q q' c) (h : q.Recorded cs c) (hq : q.WellFormed n) {d v : Var}
    (hv : q'.Clash n d v) :
    q.Clash n d v ∨ v = c.value ∧ d ≠ c.dst ∧ q.Clash n d c.dst := by
  have hphi : ∀ {b : Label} {k : Nat} {φ' : Phi}, (q'.phis b)[k]? = some φ' →
      ∃ φ, (q.phis b)[k]? = some φ ∧ φ'.dst = φ.dst := by
    intro b k φ' hφ'
    obtain ⟨φ, hφ, hdst, -⟩ := hd.phi_of hφ'
    exact ⟨φ, hφ, hdst⟩
  cases hv with
  | instr hi hdst hv =>
    rcases hd.instr_cases h hi with ⟨-, rfl⟩ | ⟨hbk, hold⟩
    · cases hdst
    · rcases hd.live h hq hv with hlive | ⟨-, -, rfl, hlive⟩
      · exact .inl (.instr hold hdst hlive)
      · refine .inr ⟨rfl, ?_, .instr hold hdst hlive⟩
        rintro rfl
        exact hbk (h.place hq hold hdst)
  | phi hφ hv =>
    obtain ⟨k, hk⟩ := List.mem_iff_getElem?.1 hφ
    obtain ⟨φ, hφ, hdst⟩ := hphi hk
    rw [hdst]
    exact .inl (.phi (List.mem_of_getElem? hφ) (hd.live_top h hq hv))
  | phis hjk hφ hψ =>
    obtain ⟨φ, hφ, hdst⟩ := hphi hφ
    obtain ⟨ψ, hψ, hdst'⟩ := hphi hψ
    rw [hdst, hdst']
    exact .inl (.phis hjk hφ hψ)
  | params ha hv => exact .inl (.params ha hv)
  | entry ha hrec hv =>
    rw [hd.receivers] at hrec
    exact .inl (.entry ha hrec (hd.live_top h hq hv))

end CopyDropped

/-! ### The other records -/

/-- A record of another copy stays true. -/
theorem Recorded.drop {c' : EdgeCopy} (h' : q.Recorded cs c') (h : q.Recorded cs c)
    (hq : q.WellFormed n) (hd : CopyDropped q q' c) (hne : c'.site ≠ c.site) :
    q'.Recorded (cs.filter (· ≠ c)) c' := by
  have hdst : c.dst ≠ c'.dst := fun heq =>
    hne (h'.phi_reads c.site ⟨c.location, c.dst⟩ h.arg heq).symm
  refine ⟨?_, ?_, fun k i hk hi => ?_, ?_, ?_, fun b i hi hv => ?_, fun s a ha hv => ?_⟩
  · rw [hd.getElem?_body h, if_neg, h'.instr]
    rintro ⟨hb, hk⟩
    have hinstr := h'.instr
    rw [hb, hk, h.instr, Option.some.injEq, Instr.copy.injEq] at hinstr
    exact hdst hinstr.1
  · rw [hd.getLast?_body h, h'.last]
  · rcases hd.instr_cases h hi with ⟨-, rfl⟩ | ⟨hbk, hold⟩
    · exact .inr (.inl rfl)
    · rcases h'.after k i hk hold with hjump | hnop | ⟨d, hmem, rfl, hblock⟩
      · exact .inl hjump
      · exact .inr (.inl hnop)
      · refine .inr (.inr ⟨d, ?_, rfl, hblock⟩)
        rw [List.mem_filter]
        refine ⟨hmem, decide_eq_true ?_⟩
        rintro rfl
        exact hbk (h.place hq hold rfl)
  · rw [hd.receivers]
    exact h'.value
  · rw [hd.argAt?, if_neg hne]
    exact h'.arg
  · obtain ⟨k, hk⟩ := List.mem_iff_getElem?.1 hi
    rcases hd.instr_cases h hk with ⟨-, rfl⟩ | ⟨-, hold⟩
    · exact absurd hv List.not_mem_nil
    · exact h'.instr_reads b i (List.mem_of_getElem? hold) hv
  · rw [hd.argAt?] at ha
    split at ha
    · -- the phi reads what an instruction read
      cases ha
      exact absurd (List.mem_singleton.2 hv.symm)
        (h'.instr_reads _ _ (List.mem_of_getElem? h.instr))
    · exact h'.phi_reads s a ha hv

/-- A recorded copy may be dropped. -/
theorem Staged.drop {p : Program} (h : Staged p n q cs) (hc : c ∈ cs)
    (hd : CopyDropped q q' c) : Staged p n q' (cs.filter (· ≠ c)) where
  refines := h.refines.trans
    (hd.refines (h.records c hc) h.refines.wellFormed h.records)
  records c' hc' := by
    obtain ⟨hmem, hne⟩ := List.mem_filter.1 hc'
    refine (h.records c' hmem).drop (h.records c hc) h.refines.wellFormed hd fun heq => ?_
    exact of_decide_eq_true hne (List.inj_on_of_nodup_map h.nodup hmem hc heq)
  nodup := h.nodup.sublist ((List.filter_sublist).map _)
  vars := hd.vars ▸ h.vars
  fresh c' hc' := h.fresh c' (List.mem_filter.1 hc').1
  size := hd.size ▸ h.size
  receivers b := (hd.receivers b).trans (h.receivers b)
  sites s := (hd.isSome_argAt? s).trans (h.sites s)

end Program

end ChordalAlloc
