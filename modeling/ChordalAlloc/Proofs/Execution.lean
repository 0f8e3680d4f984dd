/-
ChordalAlloc/Proofs/Execution.lean

What a program does when it runs.

A variable is kept in a place, and `home` says in which one: a program runs
on its variables when every variable is its own home, and on registers when
the home of a variable is its register.  Places hold 64-bit words.  The rest
of the world is a parameter (`World`): it answers calls, as it likes and
knowing all calls made before, and it says what is in a place that nobody
has written.

A run goes from block to block.  On entry the phis are read together, by the
block that control comes from, and then written; after that the instructions
run in order until the terminator says how to leave.

Two runs show the same behaviour if they end alike, with the same calls, or
both go on for ever and make the same calls (`SameBehavior`).  The main
result, `SameBehavior.of_simulation`, needs no more than a relation that
every block of the first run carries over to one or more blocks of the
second.
-/
import Mathlib.Logic.Function.Iterate
import ChordalAlloc.Code.Basic

namespace ChordalAlloc

/-! ### Places, calls and the world outside -/

/-- A call that was made. -/
structure Call where
  /-- The method called. -/
  method : String
  /-- The values it was given. -/
  args : List Int64
deriving DecidableEq, Repr

/-- Everything a run depends on besides its arguments. -/
structure World where
  /-- What a call gives back, by its method, its arguments and the calls before it. -/
  answer : String → List Int64 → List Call → Int64
  /-- What is in a place that nobody has written. -/
  blank : Int64

/-- How a run ends. -/
inductive Outcome where
  /-- The method returns. -/
  | returned (value : Option Int64)
  /-- The method raises a value. -/
  | raised (value : Int64)
  /-- Control left the code. -/
  | lost
deriving DecidableEq, Repr

/-- What is in the places, and the calls made so far, in order. -/
structure Memory where
  /-- The content of every place. -/
  cells : Nat → Int64
  /-- The calls made so far. -/
  calls : List Call

/-- The value of a variable. -/
def Memory.read (m : Memory) (home : Var → Nat) (v : Var) : Int64 := m.cells (home v)

/-! ### One instruction -/

/-- Operators work on words; an operator that has no result gives zero. -/
def BinOp.eval : BinOp → Int64 → Int64 → Int64
  | add, a, b => a + b
  | sub, a, b => a - b
  | mul, a, b => a * b
  | div, a, b => if b = 0 ∨ a = Int64.minValue ∧ b = -1 then 0 else a / b
  | rem, a, b => if b = 0 ∨ a = Int64.minValue ∧ b = -1 then 0 else a % b
  | and, a, b => a &&& b
  | or, a, b => a ||| b
  | xor, a, b => a ^^^ b
  | shl, a, b => a <<< b
  | shr, a, b => a >>> b
  | eq, a, b => if a = b then 1 else 0
  | lt, a, b => if a < b then 1 else 0

/-- Where control goes from a terminator. -/
inductive Exit where
  /-- On to a block. -/
  | goto (target : Label)
  /-- Out of the method. -/
  | leave (outcome : Outcome)
deriving DecidableEq, Repr

namespace Instr

/-- What an instruction computes, from the values of variables and the calls made before. -/
def value (w : World) (read : Var → Int64) (calls : List Call) : Instr → Int64
  | const _ x => x
  | copy _ s => read s
  | binary op _ a b => op.eval (read a) (read b)
  | call _ f args => w.answer f (args.map read) calls
  | _ => w.blank

/-- The call an instruction makes, if any. -/
def callsMade (read : Var → Int64) : Instr → List Call
  | call _ f args => [⟨f, args.map read⟩]
  | _ => []

/-- The effect of an instruction that is not a terminator. -/
def exec (w : World) (home : Var → Nat) (i : Instr) (m : Memory) : Memory :=
  { cells :=
      match i.dst? with
      | some d => Function.update m.cells (home d) (i.value w (m.read home) m.calls)
      | none => m.cells
    calls := m.calls ++ i.callsMade (m.read home) }

/-- Where a terminator goes: a branch takes the first way unless its condition is zero, and a
switch counts its targets from zero. -/
def exit (read : Var → Int64) : Instr → Exit
  | jump t => .goto t
  | branch c t e => .goto (if read c ≠ 0 then t else e)
  | switch s ts d => .goto (if read s < 0 then d else ts.getD (read s).toNatClampNeg d)
  | ret v => .leave (.returned (v.map read))
  | raise v => .leave (.raised (read v))
  | _ => .leave .lost

end Instr

/-! ### Blocks and programs -/

/-- Run instructions up to the first terminator. -/
def runBody (w : World) (home : Var → Nat) : List Instr → Memory → Memory × Exit
  | [], m => (m, .leave .lost)
  | i :: rest, m =>
    if i.isTerminator then (m, i.exit (m.read home))
    else runBody w home rest (i.exec w home m)

/-- Write what a phi read in memory `m`, for control that comes from `source`. -/
def Phi.write (home : Var → Nat) (source : Label) (m : Memory) (cells : Nat → Int64) (φ : Phi) :
    Nat → Int64 :=
  match φ.argFrom? source with
  | some a => Function.update cells (home φ.dst) (m.read home a.value)
  | none => cells

/-- Read the phis together, for control that comes from `source`, and write what they read. -/
def enterPhis (home : Var → Nat) (phis : List Phi) (source : Label) (m : Memory) : Memory :=
  { m with cells := phis.foldl (Phi.write home source m) m.cells }

/-- A run at the top of a block, or after its end. -/
inductive Config where
  /-- About to enter a block, from another one unless the run has just begun. -/
  | running (source : Option Label) (block : Label) (m : Memory)
  /-- Done. -/
  | ended (outcome : Outcome) (calls : List Call)

/-- The calls made so far. -/
def Config.calls : Config → List Call
  | running _ _ m => m.calls
  | ended _ cs => cs

/-- Where a run is after the instructions of a block. -/
def Config.after (b : Label) : Memory × Exit → Config
  | (m, .goto t) => .running (some b) t m
  | (m, .leave o) => .ended o m.calls

/-- The memory after the phis of a block. -/
def Block.enter (home : Var → Nat) (b : Block) (source : Option Label) (m : Memory) : Memory :=
  match source with
  | some s => enterPhis home b.phis s m
  | none => m

namespace Program

/-- Run one block. -/
def step (p : Program) (w : World) (home : Var → Nat) : Config → Config
  | .ended o cs => .ended o cs
  | .running source b m =>
    match p.blocks[b]? with
    | none => .ended .lost m.calls
    | some block => .after b (runBody w home block.body (block.enter home source m))

/-- What the places hold when a method is called: its arguments, in the homes of the variables
`0 .. n`. -/
def entryCells (w : World) (home : Var → Nat) {n : Nat} (args : Fin (n + 1) → Int64) :
    Nat → Int64 :=
  (List.finRange (n + 1)).foldl (fun cells i => Function.update cells (home i.val) (args i))
    fun _ => w.blank

/-- A run at its beginning. -/
def start (w : World) (home : Var → Nat) {n : Nat} (args : Fin (n + 1) → Int64) : Config :=
  .running none 0 ⟨entryCells w home args, []⟩

/-- The run of a program, block by block. -/
def run (p : Program) (w : World) (home : Var → Nat) {n : Nat} (args : Fin (n + 1) → Int64)
    (k : Nat) : Config :=
  (p.step w home)^[k] (start w home args)

end Program

/-- Two runs end alike with the same calls, or neither ends; and they make the same calls one
by one, whether they end or not. -/
structure SameBehavior (r s : Nat → Config) : Prop where
  /-- One run ends in some way exactly if the other does. -/
  ends : ∀ o cs, (∃ k, r k = .ended o cs) ↔ ∃ k, s k = .ended o cs
  /-- One run gets to make some calls first exactly if the other does. -/
  calls : ∀ cs, (∃ k, cs <+: (r k).calls) ↔ ∃ k, cs <+: (s k).calls

namespace SameBehavior

variable {r s t : Nat → Config}

theorem refl (r : Nat → Config) : SameBehavior r r :=
  ⟨fun _ _ => Iff.rfl, fun _ => Iff.rfl⟩

theorem symm (h : SameBehavior r s) : SameBehavior s r :=
  ⟨fun o cs => (h.ends o cs).symm, fun cs => (h.calls cs).symm⟩

theorem trans (h : SameBehavior r s) (h' : SameBehavior s t) : SameBehavior r t :=
  ⟨fun o cs => (h.ends o cs).trans (h'.ends o cs), fun cs => (h.calls cs).trans (h'.calls cs)⟩

end SameBehavior

/-! ### Runs go forward -/

section Forward

variable (w : World) (home : Var → Nat)

theorem calls_exec (i : Instr) (m : Memory) : m.calls <+: (i.exec w home m).calls :=
  List.prefix_append _ _

theorem calls_runBody (body : List Instr) (m : Memory) :
    m.calls <+: (runBody w home body m).1.calls := by
  induction body generalizing m with
  | nil => exact List.prefix_rfl
  | cons i rest ih =>
    rw [runBody]
    split
    · exact List.prefix_rfl
    · exact (calls_exec w home i m).trans (ih _)

@[simp] theorem calls_enter (b : Block) (source : Option Label) (m : Memory) :
    (b.enter home source m).calls = m.calls := by
  cases source <;> rfl

theorem Config.calls_after (b : Label) (r : Memory × Exit) :
    (Config.after b r).calls = r.1.calls := by
  rcases r with ⟨m, t | o⟩ <;> rfl

/-- A block only adds to the calls. -/
theorem calls_step (p : Program) (c : Config) : c.calls <+: (p.step w home c).calls := by
  cases c with
  | ended o cs => exact List.prefix_rfl
  | running source b m =>
    rw [Program.step]
    cases hb : p.blocks[b]? with
    | none => exact List.prefix_rfl
    | some block =>
      have grow := calls_runBody w home block.body (block.enter home source m)
      rw [calls_enter] at grow
      show m.calls <+:
        (Config.after b (runBody w home block.body (block.enter home source m))).calls
      rw [Config.calls_after]
      exact grow

theorem calls_iterate (p : Program) (c : Config) (k : Nat) :
    c.calls <+: ((p.step w home)^[k] c).calls := by
  induction k with
  | zero => exact List.prefix_rfl
  | succ k ih =>
    rw [Function.iterate_succ_apply']
    exact ih.trans (calls_step w home p _)

/-- What has ended stays so. -/
theorem iterate_ended (p : Program) (o : Outcome) (cs : List Call) (k : Nat) :
    (p.step w home)^[k] (.ended o cs) = .ended o cs :=
  Function.iterate_fixed rfl k

end Forward

/-! ### Simulation -/

section Simulation

variable {w : World} {p q : Program} {home home' : Var → Nat}
variable {R : Config → Config → Prop}

/-- A relation that every block of the first run carries over to at least one block of the
second holds, at every point of the first run, with a point of the second that is as far on. -/
theorem simulation_reaches
    (hstep : ∀ source b m c', R (.running source b m) c' →
      ∃ k, R (p.step w home (.running source b m)) ((q.step w home')^[k + 1] c'))
    (hended : ∀ o cs c', R (.ended o cs) c' → c' = .ended o cs)
    {c c' : Config} (h : R c c') (k : Nat) :
    ∃ k', k ≤ k' ∧ R ((p.step w home)^[k] c) ((q.step w home')^[k'] c') := by
  induction k with
  | zero => exact ⟨0, Nat.le_refl 0, h⟩
  | succ k ih =>
    obtain ⟨k', hle, hR⟩ := ih
    rw [Function.iterate_succ_apply']
    rcases hc : (p.step w home)^[k] c with ⟨source, b, m⟩ | ⟨o, cs⟩
    · rw [hc] at hR
      obtain ⟨j, hj⟩ := hstep source b m _ hR
      refine ⟨j + 1 + k', by omega, ?_⟩
      rw [Function.iterate_add_apply]
      exact hj
    · rw [hc] at hR
      refine ⟨k' + 1, by omega, ?_⟩
      rw [Function.iterate_succ_apply', hended o cs _ hR]
      rw [hended o cs _ hR] at hR
      exact hR

/-- **Runs that simulate show the same behaviour.**  Both machines are deterministic and every
block of the first run takes at least one of the second, so nothing is needed in the other
direction: a second run that ends is overtaken by the first. -/
theorem SameBehavior.of_simulation
    (hcalls : ∀ c c', R c c' → c.calls = c'.calls)
    (hrunning : ∀ source b m c', R (.running source b m) c' → ∃ s b' m', c' = .running s b' m')
    (hended : ∀ o cs c', R (.ended o cs) c' → c' = .ended o cs)
    (hstep : ∀ source b m c', R (.running source b m) c' →
      ∃ k, R (p.step w home (.running source b m)) ((q.step w home')^[k + 1] c'))
    {c c' : Config} (h : R c c') :
    SameBehavior (fun k => (p.step w home)^[k] c) (fun k => (q.step w home')^[k] c') := by
  have reach := fun k => simulation_reaches hstep hended h k
  refine ⟨fun o cs => ⟨?_, ?_⟩, fun cs => ⟨?_, ?_⟩⟩
  · rintro ⟨k, hk⟩
    obtain ⟨k', -, hR⟩ := reach k
    rw [hk] at hR
    exact ⟨k', hended o cs _ hR⟩
  · rintro ⟨k, hk⟩
    obtain ⟨k', hle, hR⟩ := reach k
    obtain ⟨j, rfl⟩ := Nat.exists_eq_add_of_le' hle
    -- the second run has ended by then, so the first one cannot be running
    have hend : (q.step w home')^[j + k] c' = .ended o cs := by
      rw [Function.iterate_add_apply, hk, iterate_ended]
    refine ⟨k, ?_⟩
    rw [hend] at hR
    rcases hc : (p.step w home)^[k] c with ⟨source, b, m⟩ | ⟨o', cs'⟩
    · rw [hc] at hR
      obtain ⟨_, _, _, hne⟩ := hrunning _ _ _ _ hR
      cases hne
    · rw [hc] at hR
      exact (hended _ _ _ hR).symm
  · rintro ⟨k, hk⟩
    obtain ⟨k', -, hR⟩ := reach k
    exact ⟨k', by simpa only [hcalls _ _ hR] using hk⟩
  · rintro ⟨k, hk⟩
    obtain ⟨k', hle, hR⟩ := reach k
    obtain ⟨j, rfl⟩ := Nat.exists_eq_add_of_le' hle
    refine ⟨k, ?_⟩
    simp only [hcalls _ _ hR]
    rw [Function.iterate_add_apply]
    exact List.IsPrefix.trans hk (calls_iterate w home' q _ j)

end Simulation

end ChordalAlloc
