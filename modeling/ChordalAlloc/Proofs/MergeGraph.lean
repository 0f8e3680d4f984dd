/-
ChordalAlloc/Proofs/MergeGraph.lean

What the graph of classes knows.

`MergeGraph.Tracks m E` says that `m` is a faithful account of a relation `E`
between classes: classes have nodes of their own, a link is listed at both
of its ends, and where `E` holds between two classes with nodes there is a
link between these nodes.  So nodes that do not interfere belong to classes
that `E` keeps apart (`Tracks.interferes`).

The account stays faithful when a class gets a node (`Tracks.addClass`), when
two nodes are linked (`Tracks.addLink`), and when two classes become one
(`Tracks.merge`).  Links that lead nowhere any more do no harm to it, so
nothing is asked of them here.
-/
import ChordalAlloc.MergeGraph
import ChordalAlloc.Proofs.Adjacency

namespace ChordalAlloc

namespace MergeGraph

/-- The numbers of the links listed at a node. -/
def listed (m : MergeGraph) (a : Nat) : List Nat := m.incident.getD a []

/-- A faithful account of the relation `E` between classes, which go by their roots. -/
structure Tracks (m : MergeGraph) (E : Nat → Nat → Prop) : Prop where
  functional : ∀ r a b, (r, a) ∈ m.nodes → (r, b) ∈ m.nodes → a = b
  distinct : ∀ r s a, (r, a) ∈ m.nodes → (s, a) ∈ m.nodes → r = s
  bound : ∀ r a, (r, a) ∈ m.nodes → a < m.incident.size
  ends : ∀ (e : Nat) (l : Link), m.links[e]? = some l → e ∈ m.listed l.fst ∧ e ∈ m.listed l.snd
  linked : ∀ r s a b, E r s → r ≠ s → (r, a) ∈ m.nodes → (s, b) ∈ m.nodes →
    ∃ e : Nat, m.links[e]? = some ⟨a, b⟩ ∨ m.links[e]? = some ⟨b, a⟩

variable {m : MergeGraph} {E E' : Nat → Nat → Prop} {r s a b : Nat}

theorem mem_of_nodeOf? (h : m.nodeOf? r = some a) : (r, a) ∈ m.nodes := by
  obtain ⟨before, after, hnodes, -⟩ := List.lookup_eq_some_iff.1 h
  rw [hnodes]
  exact List.mem_append_right _ List.mem_cons_self

theorem Tracks.mono (h : m.Tracks E) (hE : ∀ r s, E' r s → E r s) : m.Tracks E' where
  functional := h.functional
  distinct := h.distinct
  bound := h.bound
  ends := h.ends
  linked r s a b hrs := h.linked r s a b (hE r s hrs)

/-- Nodes of classes between which `E` holds interfere. -/
theorem Tracks.interferes (h : m.Tracks E) (hE : E r s) (hrs : r ≠ s)
    (ha : (r, a) ∈ m.nodes) (hb : (s, b) ∈ m.nodes) : m.interferes a b = true := by
  have hab : a ≠ b := by
    rintro rfl
    exact hrs (h.distinct r s a ha hb)
  have hlink : ∃ l ∈ m.linksOf a, l.other a = b := by
    obtain ⟨e, he | he⟩ := h.linked r s a b hE hrs ha hb
    · refine ⟨⟨a, b⟩, ?_, if_pos rfl⟩
      simp only [linksOf, List.mem_filter, List.mem_filterMap]
      exact ⟨⟨e, (h.ends e _ he).1, he⟩, by simpa [Link.isLoop] using hab⟩
    · refine ⟨⟨b, a⟩, ?_, if_neg (Ne.symm hab)⟩
      simp only [linksOf, List.mem_filter, List.mem_filterMap]
      exact ⟨⟨e, (h.ends e _ he).2, he⟩, by simpa [Link.isLoop] using Ne.symm hab⟩
  obtain ⟨l, hl, hother⟩ := hlink
  exact List.any_eq_true.2 ⟨l, hl, beq_iff_eq.2 hother⟩

/-! ### Building -/

theorem listed_addClass (r x : Nat) : (m.addClass r).listed x = m.listed x := by
  unfold addClass listed
  split
  · rfl
  · simp only [Array.getD_eq_getD_getElem?, Array.getElem?_push]
    split
    · next hx => simp [hx]
    · rfl

theorem links_addClass (r : Nat) : (m.addClass r).links = m.links := by
  unfold addClass
  split <;> rfl

theorem Tracks.addClass (h : m.Tracks E) (hE : ∀ r s, ¬ E r s) (r : Nat) :
    (m.addClass r).Tracks E := by
  have hends : ∀ (e : Nat) (l : Link), (m.addClass r).links[e]? = some l →
      e ∈ (m.addClass r).listed l.fst ∧ e ∈ (m.addClass r).listed l.snd := by
    intro e l he
    rw [links_addClass] at he
    rw [listed_addClass, listed_addClass]
    exact h.ends e l he
  rcases hr : m.nodeOf? r with - | a
  swap
  · have : m.addClass r = m := if_pos (by rw [hr]; rfl)
    rw [this]
    exact h
  have hnone : ∀ a, (r, a) ∉ m.nodes := by
    intro a ha
    rw [nodeOf?, List.lookup_eq_none_iff] at hr
    exact absurd (hr (r, a) ha) (by simp)
  have hnodes : (m.addClass r).nodes = (r, m.incident.size) :: m.nodes := by
    unfold MergeGraph.addClass
    rw [hr]
    rfl
  have hsize : (m.addClass r).incident.size = m.incident.size + 1 := by
    unfold MergeGraph.addClass
    rw [hr]
    exact Array.size_push _
  refine ⟨fun x a b ha hb => ?_, fun x y a ha hb => ?_, fun x a ha => ?_, hends,
    fun x y _ _ hxy => absurd hxy (hE x y)⟩
  · rw [hnodes, List.mem_cons, Prod.mk.injEq] at ha hb
    rcases ha with ⟨rfl, rfl⟩ | ha <;> rcases hb with ⟨hx, rfl⟩ | hb
    · rfl
    · exact absurd hb (hnone b)
    · exact absurd (hx ▸ ha) (hnone a)
    · exact h.functional x a b ha hb
  · rw [hnodes, List.mem_cons, Prod.mk.injEq] at ha hb
    rcases ha with ⟨rfl, rfl⟩ | ha <;> rcases hb with ⟨rfl, ha'⟩ | hb
    · rfl
    · exact absurd (h.bound y _ hb) (Nat.lt_irrefl _)
    · exact absurd (ha' ▸ h.bound x a ha) (Nat.lt_irrefl _)
    · exact h.distinct x y a ha hb
  · rw [hnodes, List.mem_cons, Prod.mk.injEq] at ha
    rw [hsize]
    rcases ha with ⟨-, rfl⟩ | ha
    · exact Nat.lt_succ_self _
    · exact Nat.lt_succ_of_lt (h.bound x a ha)

/-- A node lists a new link if it is an end of it. -/
theorem mem_listed_addLink (hab : m.linked a b = false) (ha : a < m.incident.size)
    (hb : b < m.incident.size) {x e : Nat} :
    e ∈ (m.addLink a b).listed x ↔ e ∈ m.listed x ∨ (x = a ∨ x = b) ∧ e = m.links.size := by
  unfold MergeGraph.addLink
  rw [hab, if_neg Bool.false_ne_true]
  simp only [listed, linkCount, Array.getD_eq_getD_getElem?]
  by_cases heq : a = b
  · subst heq
    rw [if_pos rfl, Array.getElem?_modify]
    by_cases hx : a = x
    · subst hx
      simp [ha]
    · simp [hx, Ne.symm hx]
  · rw [if_neg heq, Array.getElem?_modify, Array.getElem?_modify]
    by_cases hbx : b = x
    · subst hbx
      simp [heq, hb]
    · by_cases hax : a = x
      · subst hax
        simp [hbx, ha]
      · simp [hbx, hax, Ne.symm hax, Ne.symm hbx]

theorem nodes_addLink : (m.addLink a b).nodes = m.nodes := by
  unfold MergeGraph.addLink
  split <;> rfl

theorem links_addLink (hab : m.linked a b = false) :
    (m.addLink a b).links = m.links.push ⟨a, b⟩ := by
  unfold MergeGraph.addLink
  rw [hab]
  rfl

theorem size_addLink : (m.addLink a b).incident.size = m.incident.size := by
  unfold MergeGraph.addLink
  split
  · rfl
  · split <;> simp

/-- Linking the nodes of two classes accounts for one more pair. -/
theorem Tracks.addLink (h : m.Tracks E) (ha : (r, a) ∈ m.nodes) (hb : (s, b) ∈ m.nodes) :
    (m.addLink a b).Tracks fun x y => E x y ∨ x = r ∧ y = s ∨ x = s ∧ y = r := by
  -- what is left to show is that there is a link and that links are listed
  have hpair : ∀ {m' : MergeGraph}, m'.nodes = m.nodes → m'.incident.size = m.incident.size →
      (∀ (e : Nat) (l : Link), m'.links[e]? = some l → e ∈ m'.listed l.fst ∧ e ∈ m'.listed l.snd) →
      (∀ (e : Nat) (l : Link), m.links[e]? = some l → m'.links[e]? = some l) →
      (∃ e : Nat, m'.links[e]? = some ⟨a, b⟩ ∨ m'.links[e]? = some ⟨b, a⟩) →
      m'.Tracks fun x y => E x y ∨ x = r ∧ y = s ∨ x = s ∧ y = r := by
    intro m' hnodes hsize hends hkeep hnew
    refine ⟨?_, ?_, ?_, hends, fun x y c d hxy hne hc hd => ?_⟩
    · rw [hnodes]
      exact h.functional
    · rw [hnodes]
      exact h.distinct
    · rw [hnodes, hsize]
      exact h.bound
    · rw [hnodes] at hc hd
      rcases hxy with hxy | ⟨rfl, rfl⟩ | ⟨rfl, rfl⟩
      · obtain ⟨e, he⟩ := h.linked x y c d hxy hne hc hd
        exact ⟨e, he.imp (hkeep e _) (hkeep e _)⟩
      · rw [h.functional x c a hc ha, h.functional y d b hd hb]
        exact hnew
      · rw [h.functional x c b hc hb, h.functional y d a hd ha]
        obtain ⟨e, he⟩ := hnew
        exact ⟨e, he.symm⟩
  rcases hab : m.linked a b with - | -
  · have hlisted := @mem_listed_addLink m a b hab (h.bound r a ha) (h.bound s b hb)
    have hlinks := links_addLink hab
    refine hpair nodes_addLink size_addLink (fun e l he => ?_) (fun e l he => ?_)
      ⟨m.links.size, .inl ?_⟩
    · rw [hlisted, hlisted]
      rw [hlinks, Array.getElem?_push] at he
      split at he
      · next heq =>
        cases he
        exact ⟨.inr ⟨.inl rfl, heq⟩, .inr ⟨.inr rfl, heq⟩⟩
      · exact (h.ends e l he).imp .inl .inl
    · rw [hlinks, Array.getElem?_push, if_neg, he]
      exact Nat.ne_of_lt (Array.getElem?_eq_some_iff.1 he).1
    · rw [hlinks, Array.getElem?_push, if_pos rfl]
  · have hsame : m.addLink a b = m := if_pos hab
    rw [hsame]
    refine hpair rfl rfl h.ends (fun _ _ he => he) ?_
    obtain ⟨l, hl, heq⟩ := List.any_eq_true.1 hab
    obtain ⟨e, -, he⟩ := List.mem_filterMap.1 hl
    rw [Bool.or_eq_true, beq_iff_eq, beq_iff_eq] at heq
    refine ⟨e, heq.imp ?_ ?_⟩ <;>
    · rintro rfl
      exact he

/-- A node is found under the root of its class. -/
theorem Tracks.nodeOf?_eq (h : m.Tracks E) (ha : (r, a) ∈ m.nodes) : m.nodeOf? r = some a := by
  rcases hr : m.nodeOf? r with - | b
  · rw [nodeOf?, List.lookup_eq_none_iff] at hr
    exact absurd (hr (r, a) ha) (by simp)
  · rw [h.functional r b a (mem_of_nodeOf? hr) ha]

/-! ### Merging -/

theorem mem_handOver {es moved : List Nat} {e : Nat} :
    e ∈ handOver es moved ↔ e ∈ es ∨ e ∈ moved := by
  unfold handOver
  induction moved generalizing es with
  | nil => simp
  | cons x moved ih =>
    rw [List.foldl_cons, ih, List.mem_cons]
    split
    · next hx =>
      rw [List.contains_iff_mem] at hx
      constructor
      · exact fun h => h.imp_right .inr
      · rintro (he | rfl | he)
        · exact .inl he
        · exact .inl hx
        · exact .inr he
    · rw [List.mem_append, List.mem_singleton, or_assoc]

theorem rename_rename (hab : a ≠ b) (l : Link) :
    (l.rename a b).rename a b = l.rename a b := by
  simp only [Link.rename, Link.mk.injEq]
  constructor <;> split <;> simp_all [Ne.symm hab]

theorem getElem?_foldl_rename (hab : a ≠ b) (moved : List Nat) (ls : Array Link) (e : Nat) :
    (moved.foldl (fun ls e => ls.modify e (·.rename a b)) ls)[e]? =
      if e ∈ moved then ls[e]?.map (·.rename a b) else ls[e]? := by
  induction moved generalizing ls with
  | nil => simp
  | cons x moved ih =>
    rw [List.foldl_cons, ih, Array.getElem?_modify]
    by_cases hx : x = e
    · subst hx
      rcases ls[x]? with - | l
      · simp
      · simp [rename_rename hab]
    · simp [hx, Ne.symm hx]

/-- Every link of the absorbed node leads to the survivor. -/
theorem Tracks.links_merge (h : m.Tracks E) (hab : a ≠ b) (e : Nat) :
    (m.merge b a r).links[e]? = m.links[e]?.map (·.rename a b) := by
  have hlinks : (m.merge b a r).links[e]? =
      if e ∈ m.listed a then m.links[e]?.map (·.rename a b) else m.links[e]? := by
    unfold MergeGraph.merge
    rw [if_neg (Ne.symm hab)]
    exact getElem?_foldl_rename hab _ _ _
  rw [hlinks]
  split
  · rfl
  · next he =>
    rcases hl : m.links[e]? with - | l
    · rfl
    · -- a link that the absorbed node does not list has its ends elsewhere
      obtain ⟨hfst, hsnd⟩ := h.ends e l hl
      have hf : l.fst ≠ a := by
        intro heq
        rw [heq] at hfst
        exact he hfst
      have hs : l.snd ≠ a := by
        intro heq
        rw [heq] at hsnd
        exact he hsnd
      rw [Option.map_some, Link.rename, if_neg hf, if_neg hs]

/-- The absorbed node lists nothing any more, and the survivor lists its links as well. -/
theorem mem_listed_merge_iff (hab : a ≠ b) (hb : b < m.incident.size) {x e : Nat} :
    e ∈ (m.merge b a r).listed x ↔ x ≠ a ∧ (e ∈ m.listed x ∨ x = b ∧ e ∈ m.listed a) := by
  unfold MergeGraph.merge
  rw [if_neg (Ne.symm hab)]
  simp only [listed, moveLinks, Array.getD_eq_getD_getElem?]
  rw [Array.getElem?_modify]
  by_cases hxa : a = x
  · subst hxa
    rw [if_neg (Ne.symm hab), Array.getElem?_setIfInBounds, if_pos rfl]
    split <;> simp
  · rw [Array.getElem?_setIfInBounds_ne hxa]
    by_cases hbx : b = x
    · subst hbx
      simp [hb, Ne.symm hxa, mem_handOver]
    · simp [hbx, Ne.symm hxa, Ne.symm hbx]

/-- No link is lost: what a node listed is listed where the node went. -/
theorem mem_listed_merge (hab : a ≠ b) (hb : b < m.incident.size) {x e : Nat}
    (he : e ∈ m.listed x) : e ∈ (m.merge b a r).listed (if x = a then b else x) := by
  rw [mem_listed_merge_iff hab hb]
  split
  · next hxa => exact ⟨Ne.symm hab, .inr ⟨rfl, hxa ▸ he⟩⟩
  · next hxa => exact ⟨hxa, .inl he⟩

theorem mem_nodes_merge {x c : Nat} : (x, c) ∈ (m.merge b a r).nodes ↔
    x = r ∧ c = b ∨ (x, c) ∈ m.nodes ∧ c ≠ a ∧ x ≠ r := by
  have hnodes : (m.merge b a r).nodes
      = (r, b) :: m.nodes.filter fun node => node.2 != a && node.1 != r := by
    unfold MergeGraph.merge
    split <;> rfl
  rw [hnodes, List.mem_cons, List.mem_filter, Prod.mk.injEq, Bool.and_eq_true, bne_iff_ne,
    bne_iff_ne]

/-- A node of a class comes from nodes of the classes it is made of. -/
theorem exists_mem_nodes_of_merge (hab : a ≠ b) (hb : (r, b) ∈ m.nodes) (ha : (s, a) ∈ m.nodes)
    {x c : Nat} (hc : (if x = s then r else x, c) ∈ (m.merge b a r).nodes) :
    ∃ d, (x, d) ∈ m.nodes ∧ (if d = a then b else d) = c := by
  rcases mem_nodes_merge.1 hc with ⟨hx, rfl⟩ | ⟨hmem, hca, hxr⟩
  · split at hx
    · next hs => exact ⟨a, hs ▸ ha, if_pos rfl⟩
    · exact ⟨c, hx ▸ hb, if_neg (Ne.symm hab)⟩
  · split at hxr
    · exact absurd rfl hxr
    · next hs =>
      rw [if_neg hs] at hmem
      exact ⟨c, hmem, if_neg hca⟩

theorem size_merge : (m.merge b a r).incident.size = m.incident.size := by
  unfold MergeGraph.merge
  split
  · rfl
  · simp [moveLinks]

/-- Merging the nodes of two classes accounts for the two classes as one. -/
theorem Tracks.merge (h : m.Tracks E) (hb : (r, b) ∈ m.nodes) (ha : (s, a) ∈ m.nodes)
    (hrs : r ≠ s) : (m.merge b a r).Tracks fun x y => ∃ x₀ y₀, E x₀ y₀ ∧
      (if x₀ = s then r else x₀) = x ∧ (if y₀ = s then r else y₀) = y := by
  have hab : a ≠ b := by
    rintro rfl
    exact hrs (h.distinct r s a hb ha)
  refine ⟨fun x c d hc hd => ?_, fun x y c hx hy => ?_, fun x c hc => ?_, fun e l he => ?_,
    fun x y c d hxy hne hc hd => ?_⟩
  · rcases mem_nodes_merge.1 hc with ⟨rfl, rfl⟩ | ⟨hc, -, hxr⟩ <;>
      rcases mem_nodes_merge.1 hd with ⟨hx, rfl⟩ | ⟨hd, -, hxr'⟩
    · rfl
    · exact absurd rfl hxr'
    · exact absurd hx hxr
    · exact h.functional x c d hc hd
  · rcases mem_nodes_merge.1 hx with ⟨rfl, rfl⟩ | ⟨hx₀, -, -⟩ <;>
      rcases mem_nodes_merge.1 hy with ⟨hy₀, hc⟩ | ⟨hy₀, -, -⟩
    · exact hy₀.symm
    · exact h.distinct x y c hb hy₀
    · rw [hy₀]
      exact h.distinct x r c hx₀ (hc ▸ hb)
    · exact h.distinct x y c hx₀ hy₀
  · rw [size_merge]
    rcases mem_nodes_merge.1 hc with ⟨-, rfl⟩ | ⟨hc, -, -⟩
    · exact h.bound r c hb
    · exact h.bound x c hc
  · rw [h.links_merge hab, Option.map_eq_some_iff] at he
    obtain ⟨l, hl, rfl⟩ := he
    have hlt := h.bound r b hb
    exact (h.ends e l hl).imp (mem_listed_merge hab hlt) (mem_listed_merge hab hlt)
  · obtain ⟨x, y, hE, rfl, rfl⟩ := hxy
    obtain ⟨c₀, hc₀, rfl⟩ := exists_mem_nodes_of_merge hab hb ha hc
    obtain ⟨d₀, hd₀, rfl⟩ := exists_mem_nodes_of_merge hab hb ha hd
    have hne₀ : x ≠ y := by
      rintro rfl
      exact hne rfl
    obtain ⟨e, he⟩ := h.linked x y c₀ d₀ hE hne₀ hc₀ hd₀
    refine ⟨e, ?_⟩
    rw [h.links_merge hab]
    rcases he with he | he
    · exact .inl (by rw [he]; rfl)
    · exact .inr (by rw [he]; rfl)

end MergeGraph

end ChordalAlloc
