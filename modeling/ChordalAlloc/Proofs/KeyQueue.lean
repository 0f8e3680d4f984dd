/-
ChordalAlloc/Proofs/KeyQueue.lean

Maximum cardinality search with a queue.

The nodes that were not visited wait in an ordered set, each under a key made
of its weight and its number, such that the first key is that of the heaviest
node and, of several, the smallest one (`Key`).  Whenever an edge leads to a
node that waits, its key is taken out and a new one put in.  The search goes on
with the node of the first key, and is over when the queue is empty.

The queue is right at all times: it holds one key for every node that waits,
with the weight the node has by then, and no other key (`Agenda.Matches`).  This
survives every single edge (`Matches.raise`), so repeated entries of a list do
no harm, and visits that do not go through the queue.  Hence the first key is
that of the node which a look at all weights finds (`Matches.first`), the two
searches go hand in hand, and no table is asked for an entry it does not have.
-/
import Mathlib.Data.Finset.Max
import Mathlib.Data.Prod.Lex
import ChordalAlloc.Proofs.CardinalityOrder
import ChordalAlloc.Proofs.Lookups

namespace ChordalAlloc

namespace Digraph

/-! ### The search -/

/-- Weights before nodes; large weights and small nodes come first. -/
abbrev Key := ℕᵒᵈ ×ₗ ℕ

/-- The key of a node of the given weight. -/
def key (weight node : Nat) : Key := toLex (OrderDual.toDual weight, node)

/-- The node of a key. -/
def Key.node (k : Key) : Nat := (ofLex k).2

/-- A search with a queue. -/
structure Agenda where
  /-- The weight of each node, as it is or was when the node was visited. -/
  weight : Array Nat
  /-- Whether each node was visited. -/
  visited : Array Bool
  /-- The keys of the nodes that wait. -/
  queue : Finset Key
  /-- The nodes visited so far, latest first. -/
  order : List Nat := []

namespace Agenda

/-- The search before its first visit: `n` nodes wait. -/
def start (n : Nat) : Agenda where
  weight := Array.replicate n 0
  visited := Array.replicate n false
  queue := (Finset.range n).image (key 0)

/-- Follow an edge to `v`: if it waits, it weighs one more and gets another key. -/
def raise (n : Nat) (a : Agenda) (v : Nat) : Option Agenda :=
  if v < n then do
    let seen ← a.visited[v]?
    if seen then pure a else do
      let w ← a.weight[v]?
      let weight ← setAt? a.weight v (w + 1)
      pure { a with weight, queue := insert (key (w + 1) v) (a.queue.erase (key w v)) }
  else pure a

/-- Visit a node and follow its edges. -/
def visit (g : Digraph) (a : Agenda) (u : Nat) : Option Agenda := do
  let visited ← setAt? a.visited u true
  let w ← a.weight[u]?
  let named ← g[u]?
  named.foldlM (raise g.size)
    { a with visited, queue := a.queue.erase (key w u), order := u :: a.order }

/-- Visit a node that exists and was not visited yet; leave the search alone otherwise. -/
def visitNew (g : Digraph) (a : Agenda) (u : Nat) : Option Agenda :=
  if u < g.size then do
    let seen ← a.visited[u]?
    if seen then pure a else a.visit g u
  else pure a

/-- The first key of the queue. -/
def first? (a : Agenda) : Option Key :=
  if h : a.queue.Nonempty then some (a.queue.min' h) else none

/-- One round of the search: visit the node of the first key.  The search is over when the queue is
empty, and it cannot go on after a request without an answer. -/
def round (g : Digraph) : Option Agenda → Option (Option Agenda)
  | none => none
  | some a => a.first?.map fun k => a.visit g k.node

/-- Rounds until the queue is empty, which has to be after the given number of them. -/
def run (g : Digraph) : Nat → Agenda → Option Agenda
  | 0, a => if a.first? = none then some a else none
  | k + 1, a =>
    match a.first? with
    | none => some a
    | some key => do run g k (← a.visit g key.node)

end Agenda

/-- As `cardinalityOrder`, with a queue. -/
def cardinalityOrderWithin (g : Digraph) (first : List Nat) : Option (List Nat) := do
  let a ← first.foldlM (Agenda.visitNew g) (Agenda.start g.size)
  let a ← a.run g g.size
  return a.order.reverse

/-! ### The queue is right -/

theorem key_inj {w w' u u' : Nat} : key w u = key w' u' ↔ w = w' ∧ u = u' := by
  rw [key, key, toLex_inj, Prod.mk.injEq, OrderDual.toDual_inj]

theorem key_le {w w' u u' : Nat} : key w u ≤ key w' u' ↔ w' < w ∨ w = w' ∧ u ≤ u' :=
  Prod.Lex.toLex_le_toLex

/-- Every key is the key of a node of some weight. -/
theorem exists_key (k : Key) : ∃ w, key w k.node = k := ⟨OrderDual.ofDual (ofLex k).1, rfl⟩

namespace Agenda

variable {g : Digraph} {a : Agenda} {n u v : Nat}

/-- The tables and the queue tell the weights `ws` of the nodes that wait; the other nodes have none
there. -/
structure Matches (n : Nat) (a : Agenda) (ws : Array (Option Nat)) : Prop where
  size : ws.size = n
  weights : a.weight.size = n
  flags : a.visited.size = n
  visited : ∀ u : Nat, u < n → a.visited[u]? = some (ws[u]?).join.isNone
  weight : ∀ u w : Nat, (ws[u]?).join = some w → a.weight[u]? = some w
  queue : ∀ w u : Nat, key w u ∈ a.queue ↔ (ws[u]?).join = some w

theorem matches_start (n : Nat) : (start n).Matches n (Array.replicate n (some 0)) := by
  have hjoin : ∀ u w : Nat, ((Array.replicate n (some 0))[u]?).join = some w ↔ u < n ∧ w = 0 := by
    intro u w
    rw [Array.getElem?_replicate]
    split <;> simp [*, eq_comm]
  refine ⟨Array.size_replicate, Array.size_replicate, Array.size_replicate, fun u hu => ?_,
    fun u w hw => ?_, fun w u => ?_⟩
  · rw [start, Array.getElem?_replicate, if_pos hu, (hjoin u 0).2 ⟨hu, rfl⟩]
    rfl
  · obtain ⟨hu, rfl⟩ := (hjoin u w).1 hw
    rw [start, Array.getElem?_replicate, if_pos hu]
  · rw [hjoin, start, Finset.mem_image]
    simp only [Finset.mem_range, key_inj]
    constructor
    · rintro ⟨x, hx, rfl, rfl⟩
      exact ⟨hx, rfl⟩
    · rintro ⟨hu, rfl⟩
      exact ⟨u, hu, rfl, rfl⟩

theorem join_modify_succ (ws : Array (Option Nat)) (v u : Nat) :
    ((ws.modify v (·.map (· + 1)))[u]?).join =
      if v = u then (ws[u]?).join.map (· + 1) else (ws[u]?).join := by
  rw [Array.getElem?_modify]
  split
  · rcases ws[u]? with - | - | x <;> rfl
  · rfl

/-- A node that does not wait has no weight to add to. -/
theorem Matches.raise_of_none {ws : Array (Option Nat)} (h : a.Matches n ws)
    (hv : (ws[v]?).join = none) : a.Matches n (ws.modify v (·.map (· + 1))) := by
  have hsame : ∀ u : Nat, ((ws.modify v (·.map (· + 1)))[u]?).join = (ws[u]?).join := by
    intro u
    rw [join_modify_succ]
    split
    · next hvu => subst hvu; rw [hv]; rfl
    · rfl
  refine ⟨Array.size_modify.trans h.size, h.weights, h.flags, fun u hu => ?_, fun u w hw => ?_,
    fun w u => ?_⟩
  · rw [hsame]
    exact h.visited u hu
  · exact h.weight u w (hsame u ▸ hw)
  · rw [hsame]
    exact h.queue w u

/-- A node that waits gets another key in place of the one it has. -/
theorem Matches.raise_of_some {ws : Array (Option Nat)} {w : Nat} (h : a.Matches n ws)
    (hw : (ws[v]?).join = some w) :
    Matches n { a with weight := a.weight.setIfInBounds v (w + 1),
                       queue := insert (key (w + 1) v) (a.queue.erase (key w v)) }
      (ws.modify v (·.map (· + 1))) := by
  have hv : v < a.weight.size := h.weights.symm ▸ h.size ▸ lt_size_of_join hw
  refine ⟨Array.size_modify.trans h.size, Array.size_setIfInBounds.trans h.weights, h.flags,
    fun u hu => ?_, fun u x hx => ?_, fun x u => ?_⟩
  · rw [join_modify_succ, h.visited u hu]
    split
    · rw [Option.isNone_map]
    · rfl
  · rw [join_modify_succ] at hx
    rw [Array.getElem?_setIfInBounds]
    by_cases hvu : v = u
    · subst hvu
      rw [if_pos rfl, hw] at hx
      rw [if_pos rfl, if_pos hv]
      exact hx
    · rw [if_neg hvu] at hx ⊢
      exact h.weight u x hx
  · -- the old key of `v` goes, and keys of other nodes are not touched
    rw [Finset.mem_insert, Finset.mem_erase, Ne, key_inj, key_inj, h.queue, join_modify_succ]
    split
    · next hvu =>
      subst hvu
      rw [hw, Option.map_some, Option.some_inj, Option.some_inj]
      omega
    · next hvu =>
      have huv : u ≠ v := fun heq => hvu heq.symm
      simp [huv]

/-- Following an edge adds one to the weight of its end, if this waits. -/
theorem Matches.raise {ws : Array (Option Nat)} (h : a.Matches n ws) (v : Nat) :
    ∃ a', a.raise n v = some a' ∧ a'.Matches n (ws.modify v (·.map (· + 1))) ∧
      a'.order = a.order := by
  unfold Agenda.raise
  by_cases hv : v < n
  · rw [if_pos hv, h.visited v hv]
    rcases hw : (ws[v]?).join with - | w
    · exact ⟨a, rfl, h.raise_of_none hw, rfl⟩
    · refine ⟨_, ?_, h.raise_of_some hw, rfl⟩
      simp only [Option.isNone_some, Option.bind_eq_bind, Option.bind_some, Bool.false_eq_true,
        if_false, h.weight v w hw, setAt?_eq (h.weights.symm ▸ hv), Option.pure_def]
  · rw [if_neg hv]
    refine ⟨a, rfl, h.raise_of_none ?_, rfl⟩
    rw [Array.getElem?_eq_none (by rw [h.size]; omega)]
    rfl

/-- A node that is visited is marked, and its key is taken out. -/
theorem Matches.mark {ws : Array (Option Nat)} {w : Nat} (h : a.Matches n ws)
    (hw : (ws[u]?).join = some w) :
    Matches n { a with visited := a.visited.setIfInBounds u true,
                       queue := a.queue.erase (key w u), order := u :: a.order }
      (ws.setIfInBounds u none) := by
  have hlt : u < n := h.size ▸ lt_size_of_join hw
  have hjoin : ∀ v, ((ws.setIfInBounds u none)[v]?).join =
      if u = v then none else (ws[v]?).join := by
    intro v
    rw [join_setIfInBounds, h.size]
    by_cases huv : u = v
    · rw [if_pos ⟨huv, huv ▸ hlt⟩, if_pos huv]
    · rw [if_neg fun hv => huv hv.1, if_neg huv]
  refine ⟨Array.size_setIfInBounds.trans h.size, h.weights,
    Array.size_setIfInBounds.trans h.flags, fun v hv => ?_, fun v x hx => ?_, fun x v => ?_⟩
  · rw [Array.getElem?_setIfInBounds, hjoin]
    split
    · next huv => rw [if_pos (h.flags.symm ▸ hlt)]; rfl
    · exact h.visited v hv
  · rw [hjoin] at hx
    split at hx
    · cases hx
    · exact h.weight v x hx
  · rw [Finset.mem_erase, Ne, key_inj, h.queue, hjoin]
    split
    · next huv =>
      subst huv
      rw [hw, Option.some_inj]
      simp [eq_comm]
    · next huv => simp [Ne.symm huv]

/-- A visit to a node that waits is the visit of a search without a queue. -/
theorem Matches.visit {s : Sweep} (h : a.Matches g.size s.weight) (ho : a.order = s.visited)
    (hu : (s.weight? u).isSome = true) :
    ∃ a', a.visit g u = some a' ∧ a'.Matches g.size (s.visit g u).weight ∧
      a'.order = (s.visit g u).visited := by
  obtain ⟨w, hw⟩ := Option.isSome_iff_exists.1 hu
  have hlt : u < g.size := h.size ▸ lt_size_of_join hw
  have hnamed : g[u]? = some (g.next u) := getElem?_eq_getD hlt []
  obtain ⟨a', ha', hmatch, horder⟩ := foldlM_of_step
    (fun (b : Agenda) ws => b.Matches g.size ws ∧ b.order = u :: a.order)
    (f := Agenda.raise g.size) (g := fun ws v => ws.modify v (·.map (· + 1)))
    (fun v (_ : v ∈ g.next u) b ws hb => by
      obtain ⟨b', hb', hm, ho⟩ := hb.1.raise v
      exact ⟨b', hb', hm, ho.trans hb.2⟩) ⟨h.mark hw, rfl⟩
  refine ⟨a', ?_, hmatch, ?_⟩
  · unfold Agenda.visit
    rw [setAt?_eq (h.flags.symm ▸ hlt), h.weight u w hw, hnamed]
    exact ha'
  · rw [horder, ho]
    rfl

/-- The first key is that of the heaviest node. -/
theorem Matches.first {s : Sweep} (h : a.Matches n s.weight) :
    a.first?.map Key.node = s.heaviest := by
  have hbest := Sweep.best_foldl s s.weight.size
  have hlt : ∀ {v w}, s.weight? v = some w → v < s.weight.size := lt_size_of_join
  unfold first? Sweep.heaviest
  rcases hfold : (List.range s.weight.size).foldl s.better none with - | ⟨b, most⟩
  · rw [hfold] at hbest
    rw [dif_neg]
    · rfl
    · rintro ⟨k, hk⟩
      obtain ⟨w, hw⟩ := exists_key k
      have hwait := (h.queue w k.node).1 (hw ▸ hk)
      rw [← Sweep.weight?, hbest k.node (hlt hwait)] at hwait
      cases hwait
  · rw [hfold] at hbest
    obtain ⟨-, hmost, hall⟩ := hbest
    have hmem : key most b ∈ a.queue := (h.queue most b).2 hmost
    -- no key comes before that of the heaviest node
    have hmin : a.queue.min' ⟨_, hmem⟩ = key most b := by
      refine le_antisymm (Finset.min'_le _ _ hmem) (Finset.le_min' _ _ _ fun k hk => ?_)
      obtain ⟨w, hw⟩ := exists_key k
      rw [← hw] at hk ⊢
      have hwait : s.weight? k.node = some w := (h.queue w k.node).1 hk
      obtain ⟨hle, hsmall⟩ := hall k.node w (hlt hwait) hwait
      rw [key_le]
      rcases Nat.lt_or_eq_of_le hle with hless | heq
      · exact .inl hless
      · exact .inr ⟨heq.symm, hsmall heq⟩
    rw [dif_pos ⟨_, hmem⟩, hmin]
    rfl

/-! ### The two searches -/

/-- A search with a queue and one without are in the same state. -/
structure Follows (g : Digraph) (a : Agenda) (s : Sweep) : Prop where
  tally : s.Tally g
  matched : a.Matches g.size s.weight
  order : a.order = s.visited

variable {s : Sweep}

theorem Follows.visit (h : a.Follows g s) (hu : (s.weight? u).isSome = true) :
    ∃ a', a.visit g u = some a' ∧ a'.Follows g (s.visit g u) := by
  obtain ⟨a', ha', hmatch, horder⟩ := h.matched.visit h.order hu
  exact ⟨a', ha', h.tally.visit hu, hmatch, horder⟩

theorem Follows.visitNew (h : a.Follows g s) (u : Nat) :
    ∃ a', a.visitNew g u = some a' ∧ a'.Follows g (s.visitNew g u) := by
  unfold Agenda.visitNew Sweep.visitNew
  by_cases hu : u < g.size
  · rw [if_pos hu, h.matched.visited u hu]
    show ∃ a', (if (s.weight? u).isNone then _ else _) = some a' ∧ _
    rcases hw : s.weight? u with - | w
    · exact ⟨a, rfl, h⟩
    · exact h.visit (by rw [hw]; rfl)
  · rw [if_neg hu, if_neg fun hsome => hu (h.tally.isSome_weight?.1 hsome).1]
    exact ⟨a, rfl, h⟩

/-- The nodes asked for are visited without the queue, and still the queue is right. -/
theorem follows_first (g : Digraph) (first : List Nat) :
    ∃ a, first.foldlM (Agenda.visitNew g) (start g.size) = some a ∧
      a.Follows g (first.foldl (Sweep.visitNew g) (Sweep.start g)) :=
  foldlM_of_step (Agenda.Follows g) (fun u _ _ _ h => h.visitNew u)
    ⟨Sweep.tally_start g, matches_start g.size, rfl⟩

/-- If the queue is empty, all nodes were visited. -/
theorem Follows.first_none (h : a.Follows g s) (hfirst : a.first? = none) : s.heaviest = none := by
  rw [← h.matched.first, hfirst]
  rfl

/-- The node of the first key is the heaviest one, so the next visits are the same. -/
theorem Follows.first_some (h : a.Follows g s) {k : Key} (hfirst : a.first? = some k) :
    s.heaviest = some k.node ∧
      ∃ a', a.visit g k.node = some a' ∧ a'.Follows g (s.visit g k.node) := by
  have hheavy : s.heaviest = some k.node := by
    rw [← h.matched.first, hfirst]
    rfl
  exact ⟨hheavy, h.visit (h.tally.heaviest_spec hheavy).1⟩

/-- The queue holds one key for each node that was not visited, with the number of times the visited
ones point to it, and no other key. -/
def Queued (g : Digraph) (a : Agenda) : Prop :=
  ∀ w u, key w u ∈ a.queue ↔ u < g.size ∧ u ∉ a.order ∧ w = g.pointing a.order u

theorem Follows.queued (h : a.Follows g s) : a.Queued g := by
  intro w u
  rw [h.matched.queue, h.order, ← Sweep.weight?]
  by_cases hu : u < g.size
  · rw [h.tally.weight u hu]
    split <;> simp [*, eq_comm]
  · have hnone : s.weight? u = none := Option.not_isSome_iff_eq_none.1 fun hsome =>
      hu (h.tally.isSome_weight?.1 hsome).1
    simp [hnone, hu]

/-- Whatever the search comes to, its queue is right, and no request went without an answer. -/
theorem Follows.reaches (h : a.Follows g s) {x : Option Agenda}
    (hx : StateTransition.Reaches (round g) (some a) x) :
    ∃ b t, x = some b ∧ b.Follows g t := by
  induction hx with
  | refl => exact ⟨a, s, rfl, h⟩
  | tail _ hstep ih =>
    obtain ⟨b, t, rfl, hb⟩ := ih
    obtain ⟨k, hk, rfl⟩ := Option.map_eq_some_iff.1 (Option.mem_def.1 hstep)
    obtain ⟨-, b', hb', hfollows⟩ := hb.first_some hk
    exact ⟨b', _, hb', hfollows⟩

/-- As many rounds as there are nodes left are enough, and the search ends where the one without a
queue does. -/
theorem Follows.run {k : Nat} (h : a.Follows g s) (hk : g.size ≤ s.visited.length + k) :
    ∃ a', a.run g k = some a' ∧ some a' ∈ StateTransition.eval (round g) (some a) ∧
      a'.Follows g (s.run g k) := by
  have hover : a.first? = none → some a ∈ StateTransition.eval (round g) (some a) := fun hfirst =>
    mem_eval_of_none (by rw [round, hfirst]; rfl)
  induction k generalizing a s with
  | zero =>
    have hall := fun u => @Sweep.Tally.mem_visited_of_length g s u h.tally hk
    have hfirst : a.first? = none := by
      rw [← Option.map_eq_none_iff, h.matched.first, h.tally.heaviest_eq_none hall]
    exact ⟨a, if_pos hfirst, hover hfirst, h⟩
  | succ k ih =>
    rw [Agenda.run, Sweep.run]
    rcases hfirst : a.first? with - | key
    · rw [h.first_none hfirst]
      exact ⟨a, rfl, hover hfirst, h⟩
    · obtain ⟨hheavy, a₁, hvisit, h₁⟩ := h.first_some hfirst
      rw [hheavy]
      obtain ⟨a', hrun, heval, hfollows⟩ := ih h₁ (by
        show g.size ≤ (key.node :: s.visited).length + k
        rw [List.length_cons]
        omega) fun hfirst => mem_eval_of_none (by rw [round, hfirst]; rfl)
      refine ⟨a', ?_, mem_eval_of_some ?_ heval, hfollows⟩
      · show (a.visit g key.node).bind (Agenda.run g k) = some a'
        rw [hvisit]
        exact hrun
      · rw [round, hfirst, Option.map_some, hvisit]

end Agenda

variable (g : Digraph) (first : List Nat)

/-- The search with a queue ends, and it lists the nodes as the one without does. -/
theorem cardinalityOrder_queue :
    ∃ a b, first.foldlM (Agenda.visitNew g) (Agenda.start g.size) = some a ∧
      a.Follows g (first.foldl (Sweep.visitNew g) (Sweep.start g)) ∧
      a.run g g.size = some b ∧ some b ∈ StateTransition.eval (Agenda.round g) (some a) ∧
      g.cardinalityOrder first = b.order.reverse := by
  obtain ⟨a, ha, hfollows⟩ := Agenda.follows_first g first
  obtain ⟨b, hrun, heval, hend⟩ := hfollows.run (Nat.le_add_left g.size _)
  exact ⟨a, b, ha, hfollows, hrun, heval, by rw [hend.order]; rfl⟩

theorem cardinalityOrderWithin_eq :
    g.cardinalityOrderWithin first = some (g.cardinalityOrder first) := by
  obtain ⟨a, b, ha, -, hrun, -, horder⟩ := cardinalityOrder_queue g first
  rw [cardinalityOrderWithin, ha, Option.bind_eq_bind, Option.bind_some, hrun, horder]
  rfl

/-- **A maximum cardinality search.**  Whatever the lists of successors and the nodes asked for: the
search with a queue comes to an end, every request has its answer, and in every round the queue
holds one key for each node that waits, with the weight the node has then, and no other key.  What
it lists is what a search without a queue lists, which ends too, and this is every node once.  The
nodes asked for come first as they were given, those that do not exist and repeats left out; of the
nodes not listed yet, each that follows is one that the listed ones point to most often, and the
smallest of those. -/
theorem cardinalityOrder_search :
    (∃ a b, first.foldlM (Agenda.visitNew g) (Agenda.start g.size) = some a ∧
      (∀ x, StateTransition.Reaches (Agenda.round g) (some a) x → ∃ c, x = some c ∧ c.Queued g) ∧
      some b ∈ StateTransition.eval (Agenda.round g) (some a) ∧
      g.cardinalityOrder first = b.order.reverse) ∧
    (∃ s ∈ StateTransition.eval (Sweep.next g) (first.foldl (Sweep.visitNew g) (Sweep.start g)),
      g.cardinalityOrder first = s.visited.reverse) ∧
    (g.cardinalityOrder first).Perm (List.range g.size) ∧
    ∃ rest, g.cardinalityOrder first = (first.filter (· < g.size)).eraseDups ++ rest ∧
      ∀ before u after, rest = before ++ u :: after →
        g.BestAfter ((first.filter (· < g.size)).eraseDups ++ before) u := by
  obtain ⟨a, b, ha, hfollows, -, hb, horder⟩ := cardinalityOrder_queue g first
  obtain ⟨s, heval, hs, -, -, hrest⟩ := cardinalityOrder_spec g first
  refine ⟨⟨a, b, ha, fun x hx => ?_, hb, horder⟩, ⟨s, heval, hs⟩, ?_, hrest⟩
  · obtain ⟨c, t, rfl, hc⟩ := hfollows.reaches hx
    exact ⟨c, rfl, hc.queued⟩
  · refine (List.perm_ext_iff_of_nodup (cardinalityOrder_nodup g first) List.nodup_range).2
      fun u => ?_
    rw [mem_cardinalityOrder, List.mem_range]

end Digraph

end ChordalAlloc
