/-
ChordalAlloc/Proofs/Coloring.lean

The steps of coloring classes of variables, one by one: the graph of classes
(`Graph.quotient_spec`), the colors that classes come with
(`Seeds.ofColors_spec`) and the greedy coloring of all classes, which gives
every class a color that none of its neighbours has, whatever the order
(`Graph.Colored.colorOne`, `Graph.colorGreedily_spec`).

The first two steps stop exactly at what they look for: an edge inside a
class, and a class with two colors.
-/
import Mathlib.Data.List.Perm.Subperm
import ChordalAlloc.Coloring
import ChordalAlloc.Proofs.Adjacency
import ChordalAlloc.Proofs.CardinalityOrder
import ChordalAlloc.Proofs.Checks

namespace ChordalAlloc

/-- The colors as places; a variable without a color goes to place 0. -/
def Colors.home (colors : Colors) (v : Var) : Nat := (colors[v]?).join.getD 0

/-! ### Looking at all edges -/

theorem checkEdge_eq_ok {colors : Colors} {u v : Var} :
    checkEdge colors u v = .ok () ↔
      ∀ c, (colors[u]?).join = some c → (colors[v]?).join ≠ some c := by
  unfold checkEdge
  rcases (colors[u]?).join with - | a
  · simp
  rcases (colors[v]?).join with - | b
  · simp
  by_cases hab : a = b
  · simp [hab]
  · simp [hab, Ne.symm hab]

theorem Graph.checkColors_eq_ok {g : Graph} {colors : Colors} :
    g.checkColors colors = .ok () ↔
      ∀ u v c, g.adjacent u v = true → u < v → (colors[u]?).join = some c →
        (colors[v]?).join ≠ some c := by
  rw [Graph.checkColors, forM_eq_ok]
  constructor
  · intro h u v c hadj hlt
    exact checkEdge_eq_ok.1 (h (u, v) (Graph.mem_edges.2 ⟨hadj, hlt⟩)) c
  · rintro h ⟨u, v⟩ hedge
    obtain ⟨hadj, hlt⟩ := Graph.mem_edges.1 hedge
    exact checkEdge_eq_ok.2 fun c => h u v c hadj hlt

/-- Nothing but two ends of one color stops the check. -/
theorem Graph.checkColors_eq_error {g : Graph} {colors : Colors} {e : Error}
    (hstop : g.checkColors colors = .error e) : ∃ u v c, e = .sharedColor u v c := by
  obtain ⟨⟨u, v⟩, -, hstep⟩ := forM_eq_error hstop
  simp only [checkEdge] at hstep
  split at hstep
  · split at hstep
    · cases hstep
      exact ⟨u, v, _, rfl⟩
    · cases hstep
  · cases hstep

/-! ### The graph of classes -/

section Quotient

variable {g : Graph} {classes : Array Nat}

theorem foldl_max_succ (ks : List Nat) (n : Nat) :
    n ≤ ks.foldl (fun n k => max n (k + 1)) n ∧
      (∀ k ∈ ks, k < ks.foldl (fun n k => max n (k + 1)) n) ∧
      ∀ m, n ≤ m → (∀ k ∈ ks, k < m) → ks.foldl (fun n k => max n (k + 1)) n ≤ m := by
  induction ks generalizing n with
  | nil => exact ⟨Nat.le_refl n, fun k hk => absurd hk List.not_mem_nil, fun m hm _ => hm⟩
  | cons x ks ih =>
    obtain ⟨hle, hlt, hleast⟩ := ih (max n (x + 1))
    rw [List.foldl_cons]
    refine ⟨Nat.le_trans (Nat.le_max_left _ _) hle, List.forall_mem_cons.2 ⟨?_, hlt⟩, ?_⟩
    · exact Nat.lt_of_lt_of_le (Nat.lt_succ_self x) (Nat.le_trans (Nat.le_max_right _ _) hle)
    · intro m hm hall
      rw [List.forall_mem_cons] at hall
      exact hleast m (Nat.max_le.2 ⟨hm, hall.1⟩) hall.2

theorem lt_classCount {k v : Nat} (h : classes[v]? = some k) : k < classCount classes := by
  rw [classCount, ← Array.foldl_toList]
  exact (foldl_max_succ classes.toList 0).2.1 k
    (Array.mem_toList_iff.2 (Array.mem_of_getElem? h))

theorem classCount_le {n : Nat} (h : ∀ v k : Nat, classes[v]? = some k → k < n) :
    classCount classes ≤ n := by
  rw [classCount, ← Array.foldl_toList]
  refine (foldl_max_succ classes.toList 0).2.2 n (Nat.zero_le n) fun k hk => ?_
  obtain ⟨v, hv⟩ := Array.mem_iff_getElem?.1 (Array.mem_toList_iff.1 hk)
  exact h v k hv

/-- Two classes are joined if members of them are. -/
def Graph.JoinedClasses (g : Graph) (classes : Array Nat) (a b : Nat) : Prop :=
  ∃ u v, g.adjacent u v = true ∧ classes[u]? = some a ∧ classes[v]? = some b

instance (g : Graph) (classes : Array Nat) (a b : Nat) : Decidable (g.JoinedClasses classes a b) :=
  decidable_of_iff (∃ u ∈ List.range g.size, ∃ v ∈ g.neighbors u,
      classes[u]? = some a ∧ classes[v]? = some b) <| by
    constructor
    · rintro ⟨u, -, v, hv, hclasses⟩
      exact ⟨u, v, Graph.mem_neighbors.1 hv, hclasses⟩
    · rintro ⟨u, v, hadj, hclasses⟩
      exact ⟨u, List.mem_range.2 (Graph.lt_size_of_adjacent hadj), v, Graph.mem_neighbors.2 hadj,
        hclasses⟩

theorem Graph.JoinedClasses.symm {a b : Nat} (hg : g.Sound) (h : g.JoinedClasses classes a b) :
    g.JoinedClasses classes b a := by
  obtain ⟨u, v, hadj, hu, hv⟩ := h
  exact ⟨v, u, hg.symm u v hadj, hv, hu⟩

/-- The graph of classes after some edges: it joins the classes of their ends. -/
structure JoinsClasses (classes : Array Nat) (past : List (Nat × Nat)) (h : Graph) : Prop where
  sound : h.Sound
  size : h.size = classCount classes
  joined : ∀ a b, h.adjacent a b = true ↔ ∃ e ∈ past,
    classes[e.1]? = some a ∧ classes[e.2]? = some b ∨
      classes[e.1]? = some b ∧ classes[e.2]? = some a

theorem JoinsClasses.step {past : List (Nat × Nat)} {h : Graph} {u v : Nat}
    (hj : JoinsClasses classes past h)
    (hclass : ∀ k, classes[u]? = some k → classes[v]? ≠ some k) :
    ∃ h', joinClasses classes h u v = .ok h' ∧ JoinsClasses classes (past ++ [(u, v)]) h' := by
  -- an edge of which an end has no class adds nothing
  have skip : (∀ a b, classes[u]? = some a → classes[v]? = some b → False) →
      JoinsClasses classes (past ++ [(u, v)]) h := by
    intro hnone
    refine ⟨hj.sound, hj.size, fun x y => ?_⟩
    rw [hj.joined]
    constructor
    · rintro ⟨e, he, hxy⟩
      exact ⟨e, List.mem_append_left _ he, hxy⟩
    · rintro ⟨e, he, hxy⟩
      rcases List.mem_append.1 he with he | he
      · exact ⟨e, he, hxy⟩
      · rw [List.mem_singleton.1 he] at hxy
        rcases hxy with ⟨hx, hy⟩ | ⟨hy, hx⟩
        · exact (hnone x y hx hy).elim
        · exact (hnone y x hy hx).elim
  unfold joinClasses
  rcases hu : classes[u]? with - | a
  · refine ⟨h, rfl, skip fun a b ha _ => ?_⟩
    rw [hu] at ha
    cases ha
  rcases hv : classes[v]? with - | b
  · refine ⟨h, rfl, skip fun a b _ hb => ?_⟩
    rw [hv] at hb
    cases hb
  have hne : a ≠ b := fun heq => hclass a hu (heq ▸ hv)
  have hlt : a ≠ b ∧ a < h.size ∧ b < h.size :=
    hj.size.symm ▸ ⟨hne, lt_classCount hu, lt_classCount hv⟩
  refine ⟨h.addEdge a b, if_neg hne, hj.sound.addEdge a b, ?_, fun x y => ?_⟩
  · rw [Graph.size_addEdge, hj.size]
  · rw [Graph.adjacent_addEdge hj.sound, hj.joined]
    constructor
    · rintro (⟨e, he, hxy⟩ | ⟨-, hxy⟩)
      · exact ⟨e, List.mem_append_left _ he, hxy⟩
      · refine ⟨(u, v), List.mem_append_right _ List.mem_cons_self, ?_⟩
        rcases hxy with ⟨rfl, rfl⟩ | ⟨rfl, rfl⟩
        · exact .inl ⟨hu, hv⟩
        · exact .inr ⟨hu, hv⟩
    · rintro ⟨e, he, hxy⟩
      rcases List.mem_append.1 he with he | he
      · exact .inl ⟨e, he, hxy⟩
      · rw [List.mem_singleton.1 he, hu, hv] at hxy
        refine .inr ⟨hlt, ?_⟩
        rcases hxy with ⟨⟨⟩, ⟨⟩⟩ | ⟨⟨⟩, ⟨⟩⟩
        · exact .inl ⟨rfl, rfl⟩
        · exact .inr ⟨rfl, rfl⟩

/-- If no class has an edge inside, the graph of classes exists and joins the classes of which
members are joined. -/
theorem Graph.quotient_spec (hg : g.Sound) (hclass : ∀ u v, g.adjacent u v = true →
      ∀ k, classes[u]? = some k → classes[v]? ≠ some k) :
    ∃ h, g.quotient classes (classCount classes) = .ok h ∧ h.Sound ∧
      h.size = classCount classes ∧
      ∀ a b, h.adjacent a b = true ↔ g.JoinedClasses classes a b := by
  have hfold : ∃ h, g.quotient classes (classCount classes) = .ok h ∧
      JoinsClasses classes g.edges h := by
    apply foldlM_ok_of_step (JoinsClasses classes)
    · rintro past ⟨u, v⟩ rest h hedges hj
      have hedge : (u, v) ∈ g.edges := by
        rw [hedges]
        exact List.mem_append_right _ List.mem_cons_self
      exact hj.step (hclass u v (Graph.mem_edges.1 hedge).1)
    · refine ⟨Graph.sound_empty _, Graph.size_empty _, fun a b => ?_⟩
      simp [Graph.adjacent_empty]
  obtain ⟨h, hok, hj⟩ := hfold
  refine ⟨h, hok, hj.sound, hj.size, fun a b => ?_⟩
  rw [hj.joined]
  constructor
  · rintro ⟨⟨u, v⟩, hedge, hab⟩
    have hadj := (Graph.mem_edges.1 hedge).1
    rcases hab with ⟨ha, hb⟩ | ⟨hb, ha⟩
    · exact ⟨u, v, hadj, ha, hb⟩
    · exact ⟨v, u, hg.symm u v hadj, ha, hb⟩
  · -- an edge is listed once, from its lower end
    rintro ⟨u, v, hadj, ha, hb⟩
    rcases Nat.lt_or_gt_of_ne (hg.ne hadj) with hlt | hlt
    · exact ⟨(u, v), Graph.mem_edges.2 ⟨hadj, hlt⟩, .inl ⟨ha, hb⟩⟩
    · exact ⟨(v, u), Graph.mem_edges.2 ⟨hg.symm u v hadj, hlt⟩, .inr ⟨hb, ha⟩⟩

/-- Where there is a graph of classes, no class has an edge inside. -/
theorem Graph.inside_of_quotient (hg : g.Sound) {count : Nat} {h : Graph}
    (hok : g.quotient classes count = .ok h) {u v k : Nat} (hadj : g.adjacent u v = true)
    (hu : classes[u]? = some k) : classes[v]? ≠ some k := by
  intro hv
  -- the step for the edge would have stopped, whichever way round it is listed
  have stop : ∀ {x y : Nat}, (x, y) ∈ g.edges → classes[x]? = some k → classes[y]? ≠ some k := by
    intro x y hedge hx hy
    obtain ⟨t, t', hstep⟩ := step_of_foldlM hok hedge
    simp [joinClasses, hx, hy] at hstep
  rcases Nat.lt_or_gt_of_ne (hg.ne hadj) with hlt | hlt
  · exact stop (Graph.mem_edges.2 ⟨hadj, hlt⟩) hu hv
  · exact stop (Graph.mem_edges.2 ⟨hg.symm u v hadj, hlt⟩) hv hu

/-- Nothing but an edge inside a class keeps the graph of classes from being made. -/
theorem Graph.quotient_eq_error {count : Nat} {e : Error}
    (hstop : g.quotient classes count = .error e) : ∃ u v, e = .clashInClass u v := by
  obtain ⟨⟨u, v⟩, -, h, hstep⟩ := foldlM_eq_error hstop
  simp only [joinClasses] at hstep
  split at hstep
  · split at hstep
    · cases hstep
      exact ⟨u, v, rfl⟩
    · cases hstep
  · cases hstep

end Quotient

/-! ### Colors known beforehand -/

/-- The colors noted for classes are those of variables met so far, and none is missing. -/
structure Seeds.Inv (classes : Array Nat) (past : List (Option Nat × Nat)) (s : Seeds) :
    Prop where
  size : s.colors.size = classCount classes
  noted : ∀ c v k, (some c, v) ∈ past → classes[v]? = some k → (s.colors[k]?).join = some c
  source : ∀ k c : Nat, (s.colors[k]?).join = some c →
    ∃ v, (some c, v) ∈ past ∧ classes[v]? = some k
  first : ∀ k, k ∈ s.first ↔ (s.colors[k]?).join.isSome = true

namespace Seeds

variable {classes : Array Nat} {past : List (Option Nat × Nat)} {s : Seeds}

theorem Inv.skip {c : Option Nat} {v : Var} (h : s.Inv classes past)
    (hskip : ∀ x k, c = some x → classes[v]? = some k → (s.colors[k]?).join = some x) :
    s.Inv classes (past ++ [(c, v)]) := by
  refine ⟨h.size, fun x u k hmem hk => ?_, fun k x hx => ?_, h.first⟩
  · rcases List.mem_append.1 hmem with hmem | hmem
    · exact h.noted x u k hmem hk
    · cases List.mem_singleton.1 hmem
      exact hskip x k rfl hk
  · obtain ⟨u, hmem, hk⟩ := h.source k x hx
    exact ⟨u, List.mem_append_left _ hmem, hk⟩

/-- A variable with a color passes if the variables of its class met so far have the same. -/
theorem Inv.add {c v k : Nat} (h : s.Inv classes past) (hk : classes[v]? = some k)
    (hsame : ∀ x u, (some x, u) ∈ past → classes[u]? = some k → x = c) :
    ∃ s', s.add k c = .ok s' ∧ s'.Inv classes (past ++ [(some c, v)]) := by
  unfold Seeds.add
  rcases hknown : (s.colors[k]?).join with - | x
  · have hlt : k < s.colors.size := h.size.symm ▸ lt_classCount hk
    refine ⟨_, rfl, ?_, fun x u j hmem hj => ?_, fun j x hx => ?_, fun j => ?_⟩
    · rw [Array.size_setIfInBounds, h.size]
    · rw [join_setIfInBounds]
      rcases List.mem_append.1 hmem with hmem | hmem
      · have hnoted := h.noted x u j hmem hj
        rw [if_neg, hnoted]
        rintro ⟨rfl, -⟩
        rw [hknown] at hnoted
        cases hnoted
      · cases List.mem_singleton.1 hmem
        cases hk.symm.trans hj
        rw [if_pos ⟨rfl, hlt⟩]
    · rw [join_setIfInBounds] at hx
      split at hx
      · next hkj =>
        cases hx
        exact ⟨v, List.mem_append_right _ List.mem_cons_self, hkj.1 ▸ hk⟩
      · obtain ⟨u, hmem, hu⟩ := h.source j x hx
        exact ⟨u, List.mem_append_left _ hmem, hu⟩
    · rw [List.mem_cons, h.first, join_setIfInBounds]
      by_cases hkj : k = j
      · subst hkj
        simp [hlt]
      · rw [if_neg fun h => hkj h.1]
        exact or_iff_right (Ne.symm hkj)
  · obtain ⟨u, hmem, hu⟩ := h.source k x hknown
    obtain rfl := hsame x u hmem hu
    refine ⟨s, if_pos rfl, h.skip fun y j hy hj => ?_⟩
    cases hy
    cases hk.symm.trans hj
    exact hknown

/-- A variable passes only if the variables of its class met so far have its color. -/
theorem Inv.same_of_add {s' : Seeds} {c k : Nat} (h : s.Inv classes past)
    (hadd : s.add k c = .ok s') {x u : Nat} (hmem : (some x, u) ∈ past)
    (hu : classes[u]? = some k) : x = c := by
  unfold Seeds.add at hadd
  rw [h.noted x u k hmem hu] at hadd
  dsimp only at hadd
  split at hadd
  · next hxc => exact hxc
  · cases hadd

/-- Note the color that a variable comes with, if it has a class and a color. -/
def note (classes : Array Nat) (s : Seeds) (c : Option Nat) (v : Var) : Except Error Seeds :=
  match c, classes[v]? with
  | some color, some k => s.add k color
  | _, _ => .ok s

theorem ofColors_eq (classes : Array Nat) (count : Nat) (colors : Colors) :
    ofColors classes count colors = colors.toList.zipIdx.foldlM
      (fun s x => note classes s x.1 x.2) { colors := Array.replicate count none } := rfl

theorem note_of_color {c v k : Nat} (hk : classes[v]? = some k) :
    note classes s (some c) v = s.add k c := by
  simp only [note, hk]

/-- A variable without a class or without a color is passed over. -/
theorem Inv.note_of_none {c : Option Nat} {v : Var} (h : s.Inv classes past)
    (hnone : ∀ x k, c = some x → classes[v]? ≠ some k) :
    note classes s c v = .ok s ∧ s.Inv classes (past ++ [(c, v)]) := by
  constructor
  · unfold note
    split
    · next x k hk => exact absurd hk (hnone x k rfl)
    · rfl
  · exact h.skip fun x k hx hk => absurd hk (hnone x k hx)

theorem inv_start (classes : Array Nat) :
    Inv classes [] { colors := Array.replicate (classCount classes) none } := by
  have hnone : ∀ k : Nat, ((Array.replicate (classCount classes) (none : Option Nat))[k]?).join
      = none := by
    intro k
    rw [Array.getElem?_replicate]
    split <;> rfl
  refine ⟨Array.size_replicate, fun c v k hmem => absurd hmem List.not_mem_nil, ?_, ?_⟩
  · intro k c hk
    rw [hnone] at hk
    cases hk
  · intro k
    rw [hnone]
    simp

theorem mem_zipIdx {colors : Colors} {c : Option Nat} {v : Nat} :
    (c, v) ∈ colors.toList.zipIdx ↔ colors[v]? = some c := by
  rw [List.mk_mem_zipIdx_iff_getElem?, Array.getElem?_toList]

/-- If the colors of any two variables of a class agree, the colors of all classes are found. -/
theorem ofColors_ok {colors : Colors}
    (hsame : ∀ u v a b k : Nat, (colors[u]?).join = some a → (colors[v]?).join = some b →
      classes[u]? = some k → classes[v]? = some k → a = b) :
    ∃ s, Seeds.ofColors classes (classCount classes) colors = .ok s := by
  have hfold : ∃ s, Seeds.ofColors classes (classCount classes) colors = .ok s ∧
      s.Inv classes colors.toList.zipIdx := by
    rw [ofColors_eq]
    apply foldlM_ok_of_step (Seeds.Inv classes)
    · rintro past ⟨c, v⟩ rest s hlist hinv
      have hpast : ∀ {x u}, (x, u) ∈ past → colors[u]? = some x := fun hmem =>
        mem_zipIdx.1 (hlist ▸ List.mem_append_left _ hmem)
      have hhere : colors[v]? = some c :=
        mem_zipIdx.1 (hlist ▸ List.mem_append_right _ List.mem_cons_self)
      rcases c with - | c
      · exact ⟨s, hinv.note_of_none fun x k hx => by cases hx⟩
      rcases hk : classes[v]? with - | k
      · exact ⟨s, hinv.note_of_none fun x k _ => by simp [hk]⟩
      · rw [note_of_color hk]
        refine hinv.add hk fun x u hmem hu => ?_
        apply hsame u v x c k _ _ hu hk
        · rw [hpast hmem, Option.join_some]
        · rw [hhere, Option.join_some]
    · exact inv_start classes
  exact hfold.imp fun _ h => h.1

/-- Every class has the color of its variables that have one, and the classes with a color are
those to start with. -/
theorem ofColors_spec {colors : Colors} {s : Seeds}
    (h : Seeds.ofColors classes (classCount classes) colors = .ok s) :
    s.colors.size = classCount classes ∧
      (∀ k c : Nat, (s.colors[k]?).join = some c ↔
        ∃ v : Nat, (colors[v]?).join = some c ∧ classes[v]? = some k) ∧
      ∀ k, k ∈ s.first ↔ (s.colors[k]?).join.isSome = true := by
  have hinv : s.Inv classes colors.toList.zipIdx := by
    rw [ofColors_eq] at h
    refine foldlM_of_ok (Seeds.Inv classes) ?_ (inv_start classes) h
    rintro past ⟨c, v⟩ rest s s' - hinv hstep
    rcases c with - | c
    · obtain ⟨hok, hnext⟩ := hinv.note_of_none (c := none) (v := v) fun x k hx => by cases hx
      cases hok.symm.trans hstep
      exact hnext
    rcases hk : classes[v]? with - | k
    · obtain ⟨hok, hnext⟩ := hinv.note_of_none (c := some c) (v := v) fun x k _ => by simp [hk]
      cases hok.symm.trans hstep
      exact hnext
    · dsimp only at hstep
      rw [note_of_color hk] at hstep
      obtain ⟨s₁, hok, hnext⟩ := hinv.add hk fun x u hmem hu => hinv.same_of_add hstep hmem hu
      cases hok.symm.trans hstep
      exact hnext
  refine ⟨hinv.size, fun k c => ⟨fun hc => ?_, ?_⟩, hinv.first⟩
  · obtain ⟨v, hmem, hk⟩ := hinv.source k c hc
    refine ⟨v, ?_, hk⟩
    rw [mem_zipIdx.1 hmem, Option.join_some]
  · rintro ⟨v, hv, hk⟩
    exact hinv.noted c v k (mem_zipIdx.2 (Option.join_eq_some_iff.1 hv)) hk

/-- Nothing but a class with two colors keeps the colors of classes from being found. -/
theorem ofColors_eq_error {count : Nat} {colors : Colors} {e : Error}
    (hstop : Seeds.ofColors classes count colors = .error e) :
    ∃ k a b, e = .twoColors k a b := by
  rw [ofColors_eq] at hstop
  obtain ⟨⟨c, v⟩, -, s, hstep⟩ := foldlM_eq_error hstop
  simp only [note] at hstep
  split at hstep
  · simp only [Seeds.add] at hstep
    split at hstep
    · split at hstep
      · cases hstep
      · cases hstep
        exact ⟨_, _, _, rfl⟩
    · cases hstep
  · cases hstep

end Seeds

/-! ### Greedy coloring -/

/-- The least free number is free: a list cannot hold more numbers than it has entries. -/
theorem leastFree_notMem (taken : List Nat) : leastFree taken ∉ taken := by
  unfold leastFree
  rcases hfind : (List.range taken.length).find? fun c => !taken.contains c with - | c
  · intro hmem
    rw [Option.getD_none] at hmem
    have hall : ∀ c, c < taken.length → c ∈ taken := by
      intro c hc
      simpa using List.find?_eq_none.1 hfind c (List.mem_range.2 hc)
    have hsub : List.range (taken.length + 1) ⊆ taken := by
      intro c hc
      rcases Nat.lt_or_ge c taken.length with hlt | hge
      · exact hall c hlt
      · rw [List.mem_range] at hc
        rwa [Nat.le_antisymm (Nat.le_of_lt_succ hc) hge]
    have hlen := (List.subperm_of_subset List.nodup_range hsub).length_le
    rw [List.length_range] at hlen
    exact Nat.not_succ_le_self _ hlen
  · rw [Option.getD_some]
    simpa using List.find?_some hfind

/-- A number below the least free one is taken. -/
theorem mem_of_lt_leastFree {taken : List Nat} {d : Nat} (hd : d < leastFree taken) :
    d ∈ taken := by
  unfold leastFree at hd
  rcases hfind : (List.range taken.length).find? fun c => !taken.contains c with - | c
  · rw [hfind, Option.getD_none] at hd
    simpa using List.find?_eq_none.1 hfind d (List.mem_range.2 hd)
  · rw [hfind, Option.getD_some] at hd
    simpa using (List.find?_range_eq_some.1 hfind).2.2 d hd

namespace Graph

variable {g : Graph} {seeds colors : Colors} {past : List Nat} {k : Nat}

/-- Colors in progress: those known beforehand are kept, every node of the past has one, and
joined nodes share one only if both had it beforehand. -/
structure Colored (g : Graph) (seeds : Colors) (past : List Nat) (colors : Colors) : Prop where
  size : colors.size = g.size
  kept : ∀ j c : Nat, (seeds[j]?).join = some c → (colors[j]?).join = some c
  done : ∀ j, j ∈ past → j < g.size → (colors[j]?).join.isSome = true
  proper : ∀ i j c : Nat, g.adjacent i j = true → (colors[i]?).join = some c →
    (colors[j]?).join = some c → (seeds[i]?).join = some c ∧ (seeds[j]?).join = some c

theorem mem_takenColors {c : Nat} : c ∈ g.takenColors colors k ↔
    ∃ j, g.adjacent k j = true ∧ (colors[j]?).join = some c := by
  simp only [takenColors, List.mem_filterMap, mem_neighbors]

theorem Colored.colorOne (hg : g.Sound) (h : g.Colored seeds past colors) (k : Nat) :
    g.Colored seeds (past ++ [k]) (g.colorOne colors k) := by
  unfold Graph.colorOne
  split
  · next hsome =>
    refine ⟨h.size, h.kept, fun j hj hlt => ?_, h.proper⟩
    rcases List.mem_append.1 hj with hj | hj
    · exact h.done j hj hlt
    · rw [List.mem_singleton.1 hj]
      exact hsome
  · next hnone =>
    have fresh := leastFree_notMem (g.takenColors colors k)
    refine ⟨?_, fun j c hc => ?_, fun j hj hlt => ?_, fun i j c hadj hi hj => ?_⟩
    · rw [Array.size_setIfInBounds, h.size]
    · have hkept := h.kept j c hc
      rw [join_setIfInBounds, if_neg, hkept]
      rintro ⟨rfl, -⟩
      rw [hkept] at hnone
      exact hnone rfl
    · rw [join_setIfInBounds, h.size]
      split
      · rfl
      · next hne =>
        rcases List.mem_append.1 hj with hj | hj
        · exact h.done j hj hlt
        · exact absurd ⟨(List.mem_singleton.1 hj).symm, hlt⟩ hne
    · rw [join_setIfInBounds] at hi hj
      -- the new color is not that of a neighbour
      split at hi <;> split at hj
      · next hki hkj => exact absurd (hki.1.symm.trans hkj.1) (hg.ne hadj)
      · next hki _ =>
        cases hi
        exact absurd (mem_takenColors.2 ⟨j, hki.1 ▸ hadj, hj⟩) fresh
      · next _ hkj =>
        cases hj
        exact absurd (mem_takenColors.2 ⟨i, hkj.1 ▸ hg.symm i j hadj, hi⟩) fresh
      · exact h.proper i j c hadj hi hj

theorem Colored.foldl (hg : g.Sound) (h : g.Colored seeds past colors) (ks : List Nat) :
    g.Colored seeds (past ++ ks) (ks.foldl g.colorOne colors) := by
  induction ks generalizing past colors with
  | nil =>
    rw [List.append_nil]
    exact h
  | cons k ks ih =>
    have hnext := ih (h.colorOne hg k)
    rw [List.append_assoc] at hnext
    exact hnext

/-- Every node gets a color, and joined nodes get different ones unless both had the same
beforehand. -/
theorem colorGreedily_spec (hg : g.Sound) (s : Seeds) (hsize : s.colors.size = g.size) :
    (g.colorGreedily s).size = g.size ∧
      (∀ k, k < g.size → ((g.colorGreedily s)[k]?).join.isSome = true) ∧
      (∀ k c : Nat, (s.colors[k]?).join = some c → ((g.colorGreedily s)[k]?).join = some c) ∧
      ∀ i j c : Nat, g.adjacent i j = true → ((g.colorGreedily s)[i]?).join = some c →
        ((g.colorGreedily s)[j]?).join = some c →
        (s.colors[i]?).join = some c ∧ (s.colors[j]?).join = some c := by
  have start : g.Colored s.colors [] s.colors :=
    ⟨hsize, fun _ _ h => h, fun _ h => absurd h List.not_mem_nil, fun _ _ _ _ hi hj => ⟨hi, hj⟩⟩
  have h := start.foldl hg (g.toDigraph.cardinalityOrder s.first.reverse)
  refine ⟨h.size, fun k hk => ?_, h.kept, h.proper⟩
  apply h.done k _ hk
  rw [List.nil_append, Digraph.mem_cardinalityOrder, toDigraph, Array.size_map]
  exact hk

end Graph

end ChordalAlloc
