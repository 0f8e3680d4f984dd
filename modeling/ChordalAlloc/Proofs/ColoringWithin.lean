/-
ChordalAlloc/Proofs/ColoringWithin.lean

Coloring classes without a request that has no answer.

The graph of classes, the colors known beforehand, the greedy coloring and the
colors of the variables are written down with checked tables.  For the least
color that neighbours leave there is a row of flags, which grows as far as
their colors reach; its first flag that is not set is at that color
(`firstUnset_eq`).

Classes are numbered below their count, which is the size of every table, so
the result is that of `Graph.colorClasses`, also where that stops
(`Graph.colorClassesWithin_eq`).
-/
import ChordalAlloc.Proofs.AnalysisWithin
import ChordalAlloc.Proofs.Colorability
import ChordalAlloc.Proofs.KeyQueue

namespace ChordalAlloc

/-! ### A row of flags -/

/-- Set the flag of a number, after as many flags were added as that takes. -/
def setFlag (flags : Array Bool) (c : Nat) : Option (Array Bool) :=
  setAt? (flags ++ Array.replicate (c + 1 - flags.size) false) c true

/-- The place of the first flag that is not set. -/
def firstUnset (flags : Array Bool) : Nat := (flags.findIdx? (!·)).getD flags.size

theorem setFlag_spec (flags : Array Bool) (c : Nat) :
    ∃ flags', setFlag flags c = some flags' ∧
      ∀ d, flags'.getD d false = true ↔ flags.getD d false = true ∨ d = c := by
  have hsize : c < (flags ++ Array.replicate (c + 1 - flags.size) false).size := by
    rw [Array.size_append, Array.size_replicate]
    omega
  refine ⟨_, setAt?_eq hsize true, fun d => ?_⟩
  rw [Array.getD_eq_getD_getElem?, Array.getElem?_setIfInBounds]
  by_cases hcd : c = d
  · subst hcd
    rw [if_pos rfl, if_pos hsize]
    simp
  · have hold : (flags ++ Array.replicate (c + 1 - flags.size) false)[d]?.getD false =
        flags.getD d false := by
      rw [Array.getElem?_append, Array.getD_eq_getD_getElem?]
      split
      · rfl
      · next hd =>
        rw [Array.getElem?_replicate, Array.getElem?_eq_none (Nat.le_of_not_lt hd)]
        split <;> rfl
    rw [if_neg hcd, hold]
    exact (or_iff_left (Ne.symm hcd)).symm

/-- The flags of numbers that are listed are set one after the other. -/
theorem foldlM_setFlag (cs : List Nat) :
    ∃ flags, cs.foldlM setFlag #[] = some flags ∧
      ∀ d, flags.getD d false = true ↔ d ∈ cs := by
  -- a number finds the flags of those before it set
  have hfold : ∀ flags : Array Bool, ∃ flags', cs.foldlM setFlag flags = some flags' ∧
      ∀ d, flags'.getD d false = true ↔ flags.getD d false = true ∨ d ∈ cs := by
    induction cs with
    | nil => exact fun flags => ⟨flags, rfl, fun d => by simp⟩
    | cons c cs ih =>
      intro flags
      obtain ⟨mid, hmid, hset⟩ := setFlag_spec flags c
      obtain ⟨flags', hrest, hall⟩ := ih mid
      refine ⟨flags', ?_, fun d => ?_⟩
      · rw [List.foldlM_cons, hmid]
        exact hrest
      · rw [hall, hset, or_assoc, List.mem_cons]
  obtain ⟨flags, hok, hall⟩ := hfold #[]
  exact ⟨flags, hok, fun d => (hall d).trans (by simp)⟩

/-- The least free number is the only one that is free while those below are not. -/
theorem eq_leastFree {cs : List Nat} {c : Nat} (hc : c ∉ cs) (hbelow : ∀ d, d < c → d ∈ cs) :
    c = leastFree cs := by
  rcases Nat.lt_trichotomy c (leastFree cs) with hlt | heq | hgt
  · exact absurd (mem_of_lt_leastFree hlt) hc
  · exact heq
  · exact absurd (hbelow _ hgt) (leastFree_notMem cs)

theorem firstUnset_eq {flags : Array Bool} {cs : List Nat}
    (h : ∀ d, flags.getD d false = true ↔ d ∈ cs) : firstUnset flags = leastFree cs := by
  have hread : ∀ {d : Nat} (hd : d < flags.size), flags.getD d false = flags[d] := by
    intro d hd
    simp [hd]
  unfold firstUnset
  rcases hfind : flags.findIdx? (!·) with - | c
  · -- all flags are set, so the first number without a flag is free
    rw [Array.findIdx?_eq_none_iff] at hfind
    rw [Option.getD_none]
    refine eq_leastFree (fun hmem => ?_) fun d hd => ?_
    · rw [← h] at hmem
      simp at hmem
    · rw [← h, hread hd]
      simpa using hfind flags[d] (Array.getElem_mem hd)
  · obtain ⟨hc, hunset, hbelow⟩ := Array.findIdx?_eq_some_iff_getElem.1 hfind
    rw [Option.getD_some]
    refine eq_leastFree (fun hmem => ?_) fun d hd => ?_
    · rw [← h, hread hc] at hmem
      simp [hmem] at hunset
    · rw [← h, hread (hd.trans hc)]
      simpa using hbelow d hd

/-! ### Greedy coloring -/

namespace Graph

/-- As `colorOne`, with checked colors and flags. -/
def colorOneWithin (g : Graph) (colors : Colors) (k : Nat) : Option Colors := do
  let known ← colors[k]?
  if known.isSome then pure colors
  else do
    let near ← (g.neighbors k).mapM fun j => colors[j]?
    let flags ← (near.filterMap id).foldlM setFlag #[]
    setAt? colors k (some (firstUnset flags))

/-- As `colorGreedily`, with checked colors and a queue. -/
def colorGreedilyWithin (g : Graph) (s : Seeds) : Option Colors := do
  let order ← g.toDigraph.cardinalityOrderWithin s.first.reverse
  order.foldlM g.colorOneWithin s.colors

variable {g : Graph} {colors : Colors} {k : Nat}

theorem colorOneWithin_eq (hg : g.Sound) (hcolors : colors.size = g.size) (hk : k < g.size) :
    g.colorOneWithin colors k = some (g.colorOne colors k) := by
  have hread : ∀ j, j < g.size → ∃ c, colors[j]? = some c := fun j hj =>
    ⟨_, Array.getElem?_eq_getElem (hcolors.symm ▸ hj)⟩
  have hnear : (g.neighbors k).mapM (fun j => colors[j]?) =
      some ((g.neighbors k).filterMap fun j => colors[j]?) :=
    mapM_eq_filterMap fun j hj => hread j (hg.lt_size (mem_neighbors.1 hj))
  have htaken : ((g.neighbors k).filterMap fun j => colors[j]?).filterMap id =
      g.takenColors colors k := List.filterMap_filterMap
  obtain ⟨known, hknown⟩ := hread k hk
  obtain ⟨flags, hflags, hset⟩ := foldlM_setFlag (g.takenColors colors k)
  unfold colorOneWithin colorOne
  simp only [hknown, hnear, htaken, hflags, Option.bind_eq_bind, Option.bind_some,
    Option.join_some]
  split
  · rfl
  · rw [setAt?_eq (hcolors.symm ▸ hk), firstUnset_eq hset]

theorem size_colorOne (g : Graph) (colors : Colors) (k : Nat) :
    (g.colorOne colors k).size = colors.size := by
  unfold colorOne
  split
  · rfl
  · exact Array.size_setIfInBounds

theorem colorGreedilyWithin_eq (hg : g.Sound) {s : Seeds} (hs : s.colors.size = g.size) :
    g.colorGreedilyWithin s = some (g.colorGreedily s) := by
  rw [colorGreedilyWithin, Digraph.cardinalityOrderWithin_eq, Option.bind_eq_bind,
    Option.bind_some]
  refine (foldlM_eq_some (fun colors : Colors => colors.size = g.size) (fun k hk colors hc => ?_)
    hs).1
  rw [Digraph.mem_cardinalityOrder, toDigraph, Array.size_map] at hk
  exact ⟨colorOneWithin_eq hg hc hk, (g.size_colorOne colors k).trans hc⟩

end Graph

/-! ### The plan -/

/-- As `joinClasses`, with checked rows. -/
def joinClassesWithin (classes : Array Nat) (graph : Graph) (u v : Var) : Except Error Graph :=
  match classes[u]?, classes[v]? with
  | some a, some b =>
    if a = b then .error (.clashInClass u v)
    else require (.breach .index) (graph.addEdgeWithin a b)
  | _, _ => .ok graph

/-- As `quotient`, with checked rows. -/
def Graph.quotientWithin (g : Graph) (classes : Array Nat) (count : Nat) : Except Error Graph :=
  g.edges.foldlM (fun h (u, v) => joinClassesWithin classes h u v) (Graph.empty count)

/-- As `add`, for a class that has an entry. -/
def Seeds.addWithin (s : Seeds) (k color : Nat) : Except Error Seeds := do
  match ← require (.breach .index) s.colors[k]? with
  | some known => if known = color then .ok s else .error (.twoColors k known color)
  | none => do
    let colors ← require (.breach .index) (setAt? s.colors k (some color))
    return ⟨colors, k :: s.first⟩

/-- As `note`, for a class that has an entry. -/
def Seeds.noteWithin (classes : Array Nat) (s : Seeds) (c : Option Nat) (v : Var) :
    Except Error Seeds :=
  match c, classes[v]? with
  | some color, some k => s.addWithin k color
  | _, _ => .ok s

/-- As `ofColors`, with checked entries. -/
def Seeds.ofColorsWithin (classes : Array Nat) (count : Nat) (colors : Colors) :
    Except Error Seeds :=
  colors.toList.zipIdx.foldlM (fun s x => noteWithin classes s x.1 x.2)
    { colors := Array.replicate count none }

/-- As `plan`, with checked tables. -/
def Graph.planWithin (g : Graph) (classes : Array Nat) (colors : Colors) :
    Except Error ColorPlan := do
  let count := classCount classes
  let graph ← g.quotientWithin classes count
  let seeds ← Seeds.ofColorsWithin classes count colors
  return ⟨graph, seeds⟩

section Plan

variable {classes : Array Nat}

theorem joinClassesWithin_eq {h : Graph} (hsound : h.Sound) (u v : Var) :
    joinClassesWithin classes h u v = joinClasses classes h u v := by
  unfold joinClassesWithin joinClasses
  rcases classes[u]? with - | a
  · rfl
  rcases classes[v]? with - | b
  · rfl
  show (if a = b then _ else require _ (h.addEdgeWithin a b)) = _
  rw [hsound.addEdgeWithin_eq]
  rfl

theorem sound_joinClasses {h h' : Graph} {u v : Var} (hsound : h.Sound)
    (hok : joinClasses classes h u v = .ok h') : h'.Sound := by
  unfold joinClasses at hok
  split at hok
  · split at hok
    · cases hok
    · cases hok
      exact hsound.addEdge _ _
  · cases hok
    exact hsound

theorem Graph.quotientWithin_eq (g : Graph) (classes : Array Nat) (count : Nat) :
    g.quotientWithin classes count = g.quotient classes count :=
  foldlM_congr Graph.Sound (fun e _ _ hh => joinClassesWithin_eq hh e.1 e.2)
    (fun _ _ _ _ hh hok => sound_joinClasses hh hok) (Graph.sound_empty count)

theorem Seeds.addWithin_eq {s : Seeds} {k : Nat} (hk : k < s.colors.size) (color : Nat) :
    s.addWithin k color = s.add k color := by
  unfold addWithin add
  rw [Array.getElem?_eq_getElem hk, require_bind, Option.join_some]
  rcases s.colors[k] with - | known
  · simp only [setAt?_eq hk, require_bind]
    rfl
  · rfl

theorem Seeds.size_add {s s' : Seeds} {k color : Nat} (hok : s.add k color = .ok s') :
    s'.colors.size = s.colors.size := by
  unfold add at hok
  split at hok
  · split at hok
    · cases hok
      rfl
    · cases hok
  · cases hok
    exact Array.size_setIfInBounds

theorem Seeds.ofColorsWithin_eq (classes : Array Nat) (colors : Colors) :
    ofColorsWithin classes (classCount classes) colors =
      ofColors classes (classCount classes) colors := by
  rw [ofColorsWithin, ofColors_eq]
  refine foldlM_congr (fun s : Seeds => s.colors.size = classCount classes)
    (fun x _ s hs => ?_) (fun x _ s s' hs hok => ?_) Array.size_replicate
  · unfold noteWithin note
    rcases x.1 with - | c
    · rfl
    rcases hk : classes[x.2]? with - | k
    · rfl
    · exact addWithin_eq (hs.symm ▸ lt_classCount hk) c
  · unfold note at hok
    split at hok
    · exact (size_add hok).trans hs
    · cases hok
      exact hs

theorem Graph.planWithin_eq (g : Graph) (classes : Array Nat) (colors : Colors) :
    g.planWithin classes colors = g.plan classes colors := by
  rw [planWithin, Graph.quotientWithin_eq, Seeds.ofColorsWithin_eq]
  rfl

end Plan

/-! ### Colors of variables -/

/-- The color of a variable: that of its class, which has an entry, or the one it comes with. -/
def colorAt (classes : Array Nat) (classColors : Colors) (c : Option Nat) (v : Var) :
    Option (Option Nat) :=
  match classes[v]? with
  | some k => classColors[k]?
  | none => some c

/-- As `spread`, for classes that have an entry. -/
def spreadWithin (classes : Array Nat) (classColors colors : Colors) : Option Colors := do
  let cs ← colors.toList.zipIdx.mapM fun x => colorAt classes classColors x.1 x.2
  return cs.toArray

namespace Graph

/-- As `colorPlanned`, with checked tables. -/
def colorPlannedWithin (g : Graph) (classes : Array Nat) (colors : Colors) (plan : ColorPlan) :
    Except (Stopped Colors) Coloring := do
  let classColors ← require ⟨.breach .index, colors⟩ (plan.graph.colorGreedilyWithin plan.seeds)
  let colors ← require ⟨.breach .index, colors⟩ (spreadWithin classes classColors colors)
  match g.checkColors colors with
  | .error e => .error ⟨e, colors⟩
  | .ok () =>
    .ok { colors
          classes := plan.graph.size
          used := (classColors.toList.filterMap id).eraseDups.length }

/-- As `colorClasses`, with checked tables. -/
def colorClassesWithin (g : Graph) (classes : Array Nat) (colors : Colors) :
    Except (Stopped Colors) Coloring :=
  match g.planWithin classes colors with
  | .error e => .error ⟨e, colors⟩
  | .ok plan => g.colorPlannedWithin classes colors plan

end Graph

theorem spreadWithin_eq {classes : Array Nat} {classColors : Colors}
    (h : classColors.size = classCount classes) (colors : Colors) :
    spreadWithin classes classColors colors = some (spread classes classColors colors) := by
  have hmap : colors.toList.zipIdx.mapM (fun x => colorAt classes classColors x.1 x.2) =
      some (spread classes classColors colors).toList := by
    rw [spread, Array.toList_mapIdx, List.mapIdx_eq_zipIdx_map]
    refine mapM_eq_some ?_
    rintro ⟨c, v⟩ -
    unfold colorAt
    rcases hk : classes[v]? with - | k
    · simp only [hk]
    · simp only [hk, Array.getElem?_eq_getElem (h.symm ▸ lt_classCount hk), Option.join_some]
  rw [spreadWithin, hmap]
  rfl

/-- **Coloring looks up nothing in vain**, whatever the classes and the colors. -/
theorem Graph.colorClassesWithin_eq {g : Graph} (hg : g.Sound) (classes : Array Nat)
    (colors : Colors) : g.colorClassesWithin classes colors = g.colorClasses classes colors := by
  unfold colorClassesWithin colorClasses
  rw [planWithin_eq]
  rcases hplan : g.plan classes colors with e | plan
  · rfl
  have hsuits := suits_of_plan hg hplan
  have hpainted : plan.graph.colorGreedilyWithin plan.seeds = some plan.painted :=
    colorGreedilyWithin_eq hsuits.sound (hsuits.seeds_size.trans hsuits.size.symm)
  show g.colorPlannedWithin classes colors plan = g.colorPlanned classes colors plan
  rw [colorPlannedWithin, hpainted, require_bind, spreadWithin_eq hsuits.size_painted, require_bind]
  rfl

end ChordalAlloc
