/-
ChordalAlloc/Proofs/FinishOrder.lean

The search with an explicit stack leaves the nodes in the order of a
recursive depth-first search.

The recursive search goes through a list of nodes: one that exists and is
not marked yet is marked, the search goes through its successors, the node is
listed, and the search goes on with what is left of the list (`descend`).
Entries on the stack may have been marked meanwhile, and some successors
never get there because they were marked before.  Neither matters: what the
loop does with frames on top of a stack is what the recursive search does with
their nodes, even if some nodes that would be passed over are missing, and the
rest of the stack is untouched until then (`finishLoop_filter`).

Everything else is shown of the recursive search, by what one visit adds to
what was found below a node and beside it (`Explores.visit`).
-/
import Mathlib.Logic.Relation
import ChordalAlloc.Digraph.FinishOrder
import ChordalAlloc.Proofs.Checks

namespace ChordalAlloc

namespace Digraph

variable {g : Digraph} {seen marked : IndexSet} {us left : List Nat} {u : Nat}

/-! ### The recursive search -/

/-- What a search that starts with some nodes marked comes back with.  It takes no mark away. -/
structure Trip (seen : IndexSet) where
  /-- The nodes that are marked at the end. -/
  marked : IndexSet
  /-- The nodes the search went through, in the order in which it left them. -/
  left : List Nat
  capacity_eq : marked.capacity = seen.capacity
  size_le : seen.size ≤ marked.size

/-- A search that finds nothing to do. -/
def Trip.stay (seen : IndexSet) : Trip seen := ⟨seen, [], rfl, Nat.le_refl _⟩

/-- Mark a node, search below it, leave it, and search beside it. -/
def Trip.visit (h : u < seen.capacity ∧ seen.contains u = false) (below : Trip (seen.insert u))
    (beside : Trip below.marked) : Trip seen where
  marked := beside.marked
  left := below.left ++ u :: beside.left
  capacity_eq := by
    rw [beside.capacity_eq, below.capacity_eq, IndexSet.capacity_insert]
  size_le := by
    have hnew := IndexSet.size_insert h.1 h.2
    have hbelow := below.size_le
    have hbeside := beside.size_le
    omega

/-- Below a new node fewer nodes are left to be marked. -/
theorem Trip.unmarked_lt (h : u < seen.capacity ∧ seen.contains u = false)
    (below : Trip (seen.insert u)) :
    below.marked.capacity - below.marked.size < seen.capacity - seen.size := by
  have hnew := IndexSet.size_insert h.1 h.2
  have hbelow := below.size_le
  have hcap := below.capacity_eq
  have hle := below.marked.size_le_capacity
  rw [IndexSet.capacity_insert] at hcap
  omega

/-- Search depth-first from the nodes of a list, one after the other.  A node that does not exist
or is marked is passed over; every other one is marked, its successors are searched from in the
order of their list, and then it is left. -/
def descend (g : Digraph) (seen : IndexSet) (us : List Nat) : Trip seen :=
  match us with
  | [] => .stay seen
  | u :: us =>
    if h : u < seen.capacity ∧ seen.contains u = false then
      let below := descend g (seen.insert u) (g.next u)
      .visit h below (descend g below.marked us)
    else descend g seen us
termination_by (seen.capacity - seen.size, us.length)
decreasing_by
  · exact Prod.Lex.left _ _ (Trip.unmarked_lt h (.stay _))
  · exact Prod.Lex.left _ _ (Trip.unmarked_lt h _)
  · exact Prod.Lex.right _ (Nat.lt_succ_self _)

/-- The nodes a recursive depth-first search reaches, in the order in which it leaves them. -/
def depthFirst (g : Digraph) (start : Nat) : List Nat :=
  (descend g (IndexSet.empty g.size) [start]).left

theorem descend_nil (g : Digraph) (seen : IndexSet) :
    (descend g seen []).marked = seen ∧ (descend g seen []).left = [] := by
  rw [descend]
  exact ⟨rfl, rfl⟩

theorem descend_new (h : u < seen.capacity ∧ seen.contains u = false) (us : List Nat) :
    (descend g seen (u :: us)).marked
        = (descend g (descend g (seen.insert u) (g.next u)).marked us).marked ∧
      (descend g seen (u :: us)).left = (descend g (seen.insert u) (g.next u)).left
        ++ u :: (descend g (descend g (seen.insert u) (g.next u)).marked us).left := by
  rw [descend, dif_pos h]
  exact ⟨rfl, rfl⟩

theorem descend_old (h : ¬(u < seen.capacity ∧ seen.contains u = false)) (us : List Nat) :
    descend g seen (u :: us) = descend g seen us := by
  rw [descend, dif_neg h]

/-! ### What it finds -/

/-- The second node is reached from the first over successors that exist. -/
def Reaches (g : Digraph) : Nat → Nat → Prop :=
  Relation.ReflTransGen fun u v => v ∈ g.next u ∧ v < g.size

/-- What a search from the nodes of a list does: it marks the nodes that it leaves, each of them
for the first time, and goes on from all nodes of the list and all that it leaves to whatever
exists.  An edge to a node that is not left before leads back to one that was being visited. -/
structure Explores (g : Digraph) (seen : IndexSet) (us : List Nat) (marked : IndexSet)
    (left : List Nat) : Prop where
  contains : ∀ w, marked.contains w = true ↔ seen.contains w = true ∨ w ∈ left
  nodup : left.Nodup
  new : ∀ w ∈ left, seen.contains w = false
  covers : ∀ u ∈ us, u < g.size → marked.contains u = true
  reached : ∀ w ∈ left, ∃ u ∈ us, u < g.size ∧ g.Reaches u w
  edge : ∀ u ∈ left, ∀ w ∈ g.next u, w < g.size →
    seen.contains w = true ∨ [w, u].Sublist left ∨ w ∈ left ∧ g.Reaches w u

theorem explores_nil (g : Digraph) (seen : IndexSet) : g.Explores seen [] seen [] where
  contains w := by simp
  nodup := List.nodup_nil
  new w hw := absurd hw List.not_mem_nil
  covers u hu := absurd hu List.not_mem_nil
  reached w hw := absurd hw List.not_mem_nil
  edge u hu := absurd hu List.not_mem_nil

/-- Passing over a node. -/
theorem Explores.skip (h : g.Explores seen us marked left)
    (hold : u < g.size → seen.contains u = true) : g.Explores seen (u :: us) marked left where
  contains := h.contains
  nodup := h.nodup
  new := h.new
  covers v hv hlt := by
    rcases List.mem_cons.1 hv with rfl | hv
    · exact (h.contains v).2 (.inl (hold hlt))
    · exact h.covers v hv hlt
  reached w hw := by
    obtain ⟨v, hv, hreach⟩ := h.reached w hw
    exact ⟨v, List.mem_cons_of_mem u hv, hreach⟩
  edge := h.edge

/-! ### One visit -/

section Visit

variable {inner : IndexSet} {lower : List Nat} {w x : Nat} (hlt : u < seen.capacity)
  (hbelow : g.Explores (seen.insert u) (g.next u) inner lower)
  (hbeside : g.Explores inner us marked left)

include hlt in
theorem contains_insert_iff :
    (seen.insert u).contains w = true ↔ seen.contains w = true ∨ w = u := by
  rw [IndexSet.contains_insert, Bool.or_eq_true, decide_eq_true_eq]
  refine or_congr_right ⟨fun h => h.1.symm, ?_⟩
  rintro rfl
  exact ⟨rfl, hlt⟩

namespace Explores

include hbelow

/-- Everything below a node is reached from it. -/
theorem reaches_below (hx : x ∈ lower) : g.Reaches u x := by
  obtain ⟨v, hv, hvlt, hreach⟩ := hbelow.reached x hx
  exact .head ⟨hv, hvlt⟩ hreach

include hlt

theorem contains_below :
    inner.contains w = true ↔ (seen.contains w = true ∨ w = u) ∨ w ∈ lower := by
  rw [hbelow.contains, contains_insert_iff hlt]

theorem new_below (hw : w ∈ lower) : seen.contains w = false ∧ w ≠ u := by
  have hunseen := hbelow.new w hw
  rw [Bool.eq_false_iff, ne_eq, contains_insert_iff hlt, not_or] at hunseen
  exact ⟨Bool.eq_false_iff.2 hunseen.1, hunseen.2⟩

include hbeside

theorem new_beside (hw : w ∈ left) : seen.contains w = false ∧ w ≠ u ∧ w ∉ lower := by
  have hunseen := hbeside.new w hw
  rw [Bool.eq_false_iff, ne_eq, hbelow.contains_below hlt, not_or, not_or] at hunseen
  exact ⟨Bool.eq_false_iff.2 hunseen.1.1, hunseen.1.2, hunseen.2⟩

theorem nodup_visit : (lower ++ u :: left).Nodup := by
  refine List.nodup_append.2 ⟨hbelow.nodup, List.nodup_cons.2 ⟨fun hu => ?_, hbeside.nodup⟩, ?_⟩
  · exact (hbelow.new_beside hlt hbeside hu).2.1 rfl
  · rintro a ha b hb rfl
    rcases List.mem_cons.1 hb with rfl | hb
    · exact (hbelow.new_below hlt ha).2 rfl
    · exact (hbelow.new_beside hlt hbeside hb).2.2 ha

/-- Whether an edge starts below the visited node, at it or beside it: its end was marked before, is
left before its start, or leads back to its start. -/
theorem edge_visit (hx : x ∈ lower ++ u :: left) (hw : w ∈ g.next x) (hwlt : w < g.size) :
    seen.contains w = true ∨ [w, x].Sublist (lower ++ u :: left) ∨
      w ∈ lower ++ u :: left ∧ g.Reaches w x := by
  rw [List.mem_append, List.mem_cons] at hx
  rcases hx with hx | rfl | hx
  · rcases hbelow.edge x hx w hw hwlt with hseen | hsub | ⟨hmem, hreach⟩
    · rw [contains_insert_iff hlt] at hseen
      rcases hseen with hseen | rfl
      · exact .inl hseen
      · -- back to the node that is being visited
        exact .inr (.inr ⟨List.mem_append_right _ List.mem_cons_self, hbelow.reaches_below hx⟩)
    · exact .inr (.inl (hsub.trans (List.sublist_append_left _ _)))
    · exact .inr (.inr ⟨List.mem_append_left _ hmem, hreach⟩)
  · have hcovered := hbelow.covers w hw hwlt
    rw [hbelow.contains_below hlt] at hcovered
    rcases hcovered with (hseen | rfl) | hmem
    · exact .inl hseen
    · exact .inr (.inr ⟨List.mem_append_right _ List.mem_cons_self, .refl⟩)
    · exact .inr (.inl ((List.singleton_sublist.2 hmem).append
        (List.singleton_sublist.2 List.mem_cons_self)))
  · rcases hbeside.edge x hx w hw hwlt with hseen | hsub | ⟨hmem, hreach⟩
    · rw [hbelow.contains_below hlt] at hseen
      rcases hseen with (hseen | rfl) | hmem
      · exact .inl hseen
      · refine .inr (.inl (List.Sublist.trans ?_ (List.sublist_append_right _ _)))
        exact (List.singleton_sublist.2 hx).cons_cons w
      · exact .inr (.inl ((List.singleton_sublist.2 hmem).append
          (List.singleton_sublist.2 (List.mem_cons_of_mem u hx))))
    · exact .inr (.inl ((hsub.cons u).trans (List.sublist_append_right _ _)))
    · exact .inr (.inr ⟨List.mem_append_right _ (List.mem_cons_of_mem u hmem), hreach⟩)

/-- Visiting a node, and then what stands behind it in the list. -/
theorem visit (hcap : seen.capacity = g.size) (hnew : seen.contains u = false) :
    g.Explores seen (u :: us) marked (lower ++ u :: left) where
  contains w := by
    rw [hbeside.contains, hbelow.contains_below hlt, List.mem_append, List.mem_cons]
    tauto
  nodup := hbelow.nodup_visit hlt hbeside
  new w hw := by
    rw [List.mem_append, List.mem_cons] at hw
    rcases hw with hw | rfl | hw
    · exact (hbelow.new_below hlt hw).1
    · exact hnew
    · exact (hbelow.new_beside hlt hbeside hw).1
  covers v hv hvlt := by
    rcases List.mem_cons.1 hv with rfl | hv
    · exact (hbeside.contains v).2 (.inl ((hbelow.contains_below hlt).2 (.inl (.inr rfl))))
    · exact hbeside.covers v hv hvlt
  reached w hw := by
    rw [List.mem_append, List.mem_cons] at hw
    rcases hw with hw | rfl | hw
    · exact ⟨u, List.mem_cons_self, hcap ▸ hlt, hbelow.reaches_below hw⟩
    · exact ⟨w, List.mem_cons_self, hcap ▸ hlt, .refl⟩
    · obtain ⟨v, hv, hreach⟩ := hbeside.reached w hw
      exact ⟨v, List.mem_cons_of_mem u hv, hreach⟩
  edge x hx w hw hwlt := hbelow.edge_visit hlt hbeside hx hw hwlt

end Explores

end Visit

theorem explores_descend (hcap : seen.capacity = g.size) (us : List Nat) :
    g.Explores seen us (descend g seen us).marked (descend g seen us).left := by
  induction seen, us using descend.induct g with
  | case1 seen =>
    obtain ⟨hmarked, hleft⟩ := descend_nil g seen
    rw [hmarked, hleft]
    exact explores_nil g seen
  | case2 seen u us h below ihbelow ihbeside =>
    obtain ⟨hmarked, hleft⟩ := descend_new (g := g) h us
    have hcap' : (seen.insert u).capacity = g.size := (IndexSet.capacity_insert seen u).trans hcap
    rw [hmarked, hleft]
    exact (ihbelow hcap').visit h.1 (ihbeside (below.capacity_eq.trans hcap')) hcap h.2
  | case3 seen u us h ih =>
    rw [descend_old h]
    refine (ih hcap).skip fun hlt => ?_
    by_contra hnew
    exact h ⟨hcap.symm ▸ hlt, Bool.eq_false_iff.2 hnew⟩

/-! ### The loop -/

/-- Frames on top of a stack are worked off as a recursive search from their nodes would do it,
before anything below them is looked at.  Nodes that the search passes over may be missing. -/
theorem finishLoop_filter (hcap : seen.capacity = g.size) (us : List Nat) (keep : Nat → Bool)
    (hkeep : ∀ v, v < g.size → seen.contains v = false → keep v = true) (rest : List Frame)
    (done : List Nat) :
    finishLoop g seen ((us.filter keep).map .enter ++ rest) done =
      finishLoop g (descend g seen us).marked rest ((descend g seen us).left.reverse ++ done) := by
  induction seen, us using descend.induct g generalizing keep rest done with
  | case1 seen =>
    obtain ⟨hmarked, hleft⟩ := descend_nil g seen
    rw [hmarked, hleft]
    rfl
  | case2 seen u us h below ihbelow ihbeside =>
    obtain ⟨hmarked, hleft⟩ := descend_new (g := g) h us
    have hcap' : (seen.insert u).capacity = g.size := (IndexSet.capacity_insert seen u).trans hcap
    have hbelow := explores_descend hcap' (g.next u)
    rw [List.filter_cons_of_pos (hkeep u (hcap ▸ h.1) h.2), List.map_cons, List.cons_append,
      finishLoop, dif_pos h, ihbelow hcap' _ (fun v hv hnew => by simp [hv, hnew]), finishLoop,
      ihbeside (below.capacity_eq.trans hcap') keep, hmarked, hleft]
    · simp [below]
    · intro v hv hnew
      apply hkeep v hv
      rw [Bool.eq_false_iff] at hnew ⊢
      intro hseen
      refine hnew ((hbelow.contains v).2 (.inl ?_))
      rw [IndexSet.contains_insert, hseen, Bool.true_or]
  | case3 seen u us h ih =>
    rw [descend_old h, ← ih hcap keep hkeep rest done]
    by_cases hu : keep u = true
    · rw [List.filter_cons_of_pos hu, List.map_cons, List.cons_append, finishLoop, dif_neg h]
    · rw [List.filter_cons_of_neg hu]

theorem finishOrder_eq_depthFirst (g : Digraph) (start : Nat) :
    g.finishOrder start = g.depthFirst start := by
  have hcap : (IndexSet.empty g.size).capacity = g.size := rfl
  have h := finishLoop_filter hcap [start] (fun _ => true) (fun _ _ _ => rfl) [] []
  rw [List.filter_true, List.append_nil, List.append_nil, finishLoop, List.reverse_reverse] at h
  exact h

/-- The search between two rounds of the loop. -/
structure Walk where
  /-- The nodes marked so far. -/
  seen : IndexSet
  /-- What is still to be done. -/
  stack : List Frame
  /-- The nodes left so far, latest first. -/
  done : List Nat

/-- One round of the loop, which ends when the stack is empty. -/
def Walk.next (g : Digraph) (w : Walk) : Option Walk :=
  match w.stack with
  | [] => none
  | .leave u :: rest => some { w with stack := rest, done := u :: w.done }
  | .enter u :: rest =>
    if u < w.seen.capacity ∧ w.seen.contains u = false then
      let fresh := (g.next u).filter fun v => v < g.size && !(w.seen.insert u).contains v
      some { w with seen := w.seen.insert u, stack := fresh.map .enter ++ .leave u :: rest }
    else some { w with stack := rest }

/-- The loop ends, whatever is marked and whatever is on the stack. -/
theorem finishLoop_mem_eval (g : Digraph) (seen : IndexSet) (stack : List Frame)
    (done : List Nat) :
    ∃ w ∈ StateTransition.eval (Walk.next g) ⟨seen, stack, done⟩,
      finishLoop g seen stack done = w.done.reverse := by
  fun_induction finishLoop g seen stack done with
  | case1 seen done => exact ⟨_, mem_eval_of_none rfl, rfl⟩
  | case2 seen done u rest ih =>
    obtain ⟨w, hw, heq⟩ := ih
    exact ⟨w, mem_eval_of_some rfl hw, heq⟩
  | case3 seen done u rest h fresh ih =>
    obtain ⟨w, hw, heq⟩ := ih
    exact ⟨w, mem_eval_of_some (if_pos h) hw, heq⟩
  | case4 seen done u rest h ih =>
    obtain ⟨w, hw, heq⟩ := ih
    exact ⟨w, mem_eval_of_some (if_neg h) hw, heq⟩

/-! ### The finished order -/

theorem explores_depthFirst (g : Digraph) (start : Nat) :
    g.Explores (.empty g.size) [start] (descend g (.empty g.size) [start]).marked
      (g.depthFirst start) :=
  explores_descend rfl [start]

theorem depthFirst_edge {start w : Nat} (hu : u ∈ g.depthFirst start) (hw : w ∈ g.next u)
    (hlt : w < g.size) : [w, u].Sublist (g.depthFirst start) ∨
      w ∈ g.depthFirst start ∧ g.Reaches w u := by
  rcases (explores_depthFirst g start).edge u hu w hw hlt with hseen | h
  · rw [IndexSet.contains_empty] at hseen
    cases hseen
  · exact h

theorem mem_depthFirst {start : Nat} :
    u ∈ g.depthFirst start ↔ start < g.size ∧ g.Reaches start u := by
  have h := explores_depthFirst g start
  constructor
  · intro hu
    obtain ⟨v, hv, hlt, hreach⟩ := h.reached u hu
    rw [List.mem_singleton.1 hv] at hlt hreach
    exact ⟨hlt, hreach⟩
  · rintro ⟨hlt, hreach⟩
    induction hreach with
    | refl =>
      have hmarked := (h.contains start).1 (h.covers start List.mem_cons_self hlt)
      rwa [IndexSet.contains_empty, Bool.false_eq_true, false_or] at hmarked
    | tail _ hstep ih =>
      rcases depthFirst_edge ih hstep.1 hstep.2 with hsub | ⟨hmem, -⟩
      · exact hsub.subset List.mem_cons_self
      · exact hmem

theorem lt_size_of_reaches {start : Nat} (hlt : start < g.size) (h : g.Reaches start u) :
    u < g.size := by
  rcases Relation.ReflTransGen.cases_tail h with rfl | ⟨v, -, hstep⟩
  · exact hlt
  · exact hstep.2

theorem depthFirst_eq_concat {start : Nat} (hlt : start < g.size) :
    ∃ below, g.depthFirst start = below ++ [start] := by
  have hnew : start < (IndexSet.empty g.size).capacity ∧
      (IndexSet.empty g.size).contains start = false := ⟨hlt, IndexSet.contains_empty _ _⟩
  rw [depthFirst, (descend_new hnew []).2, (descend_nil g _).2]
  exact ⟨_, rfl⟩

/-- **The stack gives the order of a recursive depth-first search.**  Whatever the lists of
successors and the start, the loop comes to an end with the list of the recursive search.  So it
lists the nodes reachable from the start over successors that exist, each once and the start last.
Where an edge joins two listed nodes, its end is listed before its start, is its start, or leads
back to it. -/
theorem finishOrder_recursive (g : Digraph) (start : Nat) :
    (∃ w ∈ StateTransition.eval (Walk.next g) ⟨.empty g.size, [.enter start], []⟩,
      g.finishOrder start = w.done.reverse) ∧
    g.finishOrder start = g.depthFirst start ∧
    (g.size ≤ start → g.finishOrder start = []) ∧
    (∀ u, u ∈ g.finishOrder start ↔ start < g.size ∧ g.Reaches start u) ∧
    (g.finishOrder start).Nodup ∧
    (start < g.size → (g.finishOrder start).getLast? = some start) ∧
    ∀ u w, u ∈ g.finishOrder start → w ∈ g.finishOrder start → w ∈ g.next u →
      [w, u].Sublist (g.finishOrder start) ∨ w = u ∨ g.Reaches w u := by
  refine ⟨finishLoop_mem_eval g _ _ _, finishOrder_eq_depthFirst g start, ?_⟩
  rw [finishOrder_eq_depthFirst]
  refine ⟨fun hge => ?_, fun u => mem_depthFirst, (explores_depthFirst g start).nodup,
    fun hlt => ?_, fun u w hu hw hedge => ?_⟩
  · refine List.eq_nil_iff_forall_not_mem.2 fun u hu => ?_
    exact Nat.not_lt.2 hge (mem_depthFirst.1 hu).1
  · obtain ⟨below, heq⟩ := depthFirst_eq_concat hlt
    rw [heq, List.getLast?_concat]
  · obtain ⟨hlt, hreach⟩ := mem_depthFirst.1 hw
    rcases depthFirst_edge hu hedge (lt_size_of_reaches hlt hreach) with hsub | ⟨-, hback⟩
    · exact .inl hsub
    · exact .inr (.inr hback)

end Digraph

end ChordalAlloc
