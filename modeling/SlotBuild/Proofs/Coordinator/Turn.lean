import SlotBuild.Coordinator
import SlotBuild.Proofs.Graph.Frontier

/-! The turns of a session and what each of them does for a task. Workers are left open: a turn may
answer with any outcome and may change what is shared in any way, so what holds after all turns
holds for every behaviour of the tasks and of the outside. -/

namespace SlotBuild

inductive Turn where
  | coordinate
  | answer (position : Nat) (outcome : Outcome)
  /-- Something that is shared changes, for one that the session is cancelled. -/
  | change (site : Site)

/-- What a turn does for one task. -/
inductive Deed where
  | accept (task : Nat)
  | skip (task : Nat) (reason : SkipReason)
  | answer (task : Nat) (outcome : Outcome)
  | receive (task : Nat) (outcome : Outcome)
deriving DecidableEq, Repr

namespace Deed

def admitted? : Deed → Option Nat
  | accept i => some i
  | _ => none

def taken? : Deed → Option Nat
  | accept i => some i
  | skip i _ => some i
  | _ => none

/-- The task that the coordinator is done with, and what became of it. -/
def settled? : Deed → Option (Nat × Outcome)
  | skip i reason => some (i, .skipped reason)
  | receive i o => some (i, o)
  | _ => none

end Deed

namespace Coordinator

/-- The next step of the coordinator, if it need not wait for a worker. -/
def nextDeed? (p : Plan) (c : Coordinator) : Option Deed :=
  match if c.inFlight < workers p then c.frontier.pop? else none with
  | some (i, _) =>
    match c.inherited[i]? with
    | some (some reason) => some (.skip i reason)
    | _ => if c.halted || c.site.world.cancelled then some (.skip i .cancelled) else some (.accept i)
  | none => c.arrived.head?.map fun x => .receive x.1 x.2

def answer (position : Nat) (o : Outcome) (c : Coordinator) : Coordinator :=
  match c.running[position]? with
  | none => c
  | some i =>
    { c with running := c.running.eraseIdx position, arrived := c.arrived ++ [(i, o)] }

def turn (p : Plan) (c : Coordinator) : Turn → Coordinator
  | .coordinate => coordinate p c
  | .answer position o => answer position o c
  | .change site => { c with site := site }

def deed? (p : Plan) (c : Coordinator) : Turn → Option Deed
  | .coordinate => nextDeed? p c
  | .answer position o => (c.running[position]?).map fun i => .answer i o
  | .change _ => none

def follow (p : Plan) (c : Coordinator) (turns : List Turn) : Coordinator := turns.foldl (turn p) c

/-- What the turns do, one after the other. A turn that has to wait does nothing. -/
def deeds (p : Plan) : Coordinator → List Turn → List Deed
  | _, [] => []
  | c, t :: ts => (deed? p c t).toList ++ deeds p (turn p c t) ts

/-- Everything that a turn can do. -/
inductive Step (p : Plan) (c : Coordinator) : Option Deed → Coordinator → Prop where
  | accept {i : Nat} {rest : Frontier} (room : c.inFlight < workers p)
      (popped : c.frontier.pop? = some (i, rest)) (free : ∀ r, c.inherited[i]? ≠ some (some r))
      (going : c.halted = false) (live : c.site.world.cancelled = false) :
      Step p c (some (.accept i)) { c with frontier := rest, running := c.running ++ [i] }
  | inherit {i : Nat} {rest : Frontier} {reason : SkipReason}
      (popped : c.frontier.pop? = some (i, rest)) (bound : c.inherited[i]? = some (some reason)) :
      Step p c (some (.skip i reason)) (settle p.graph i (.skipped reason) { c with frontier := rest })
  | cancel {i : Nat} {rest : Frontier} (popped : c.frontier.pop? = some (i, rest))
      (cause : (c.halted || c.site.world.cancelled) = true)
      (free : ∀ r, c.inherited[i]? ≠ some (some r)) :
      Step p c (some (.skip i .cancelled))
        (settle p.graph i (.skipped .cancelled) { c with frontier := rest })
  | receive {i : Nat} {o : Outcome} {rest : List (Nat × Outcome)} (head : c.arrived = (i, o) :: rest) :
      Step p c (some (.receive i o)) (settle p.graph i o { c with
        arrived := rest
        halted := c.halted || (p.config.failFast && o.isFailure) })
  | answer {position i : Nat} (o : Outcome) (runs : c.running[position]? = some i) :
      Step p c (some (.answer i o))
        { c with running := c.running.eraseIdx position, arrived := c.arrived ++ [(i, o)] }
  | rest (site : Site) : Step p c none { c with site := site }

theorem receive_step (p : Plan) (c : Coordinator) :
    Step p c (c.arrived.head?.map fun x => .receive x.1 x.2) (receive p c) := by
  cases h : c.arrived with
  | nil =>
    simp only [receive, h, List.head?_nil, Option.map_none]
    exact .rest c.site
  | cons x rest =>
    simp only [receive, h, List.head?_cons, Option.map_some]
    exact .receive h

theorem launch_step {p : Plan} {c : Coordinator} {i : Nat} {rest : Frontier}
    (room : c.inFlight < workers p) (popped : c.frontier.pop? = some (i, rest)) :
    Step p c (nextDeed? p c) (launch p.graph i { c with frontier := rest }) := by
  simp only [nextDeed?, if_pos room, popped, launch]
  have hfree : (∀ r, c.inherited[i]? ≠ some (some r)) →
      Step p c (if c.halted || c.site.world.cancelled then some (.skip i .cancelled) else some (.accept i))
        (if c.halted || c.site.world.cancelled
          then settle p.graph i (.skipped .cancelled) { c with frontier := rest }
          else { c with frontier := rest, running := c.running ++ [i] }) := by
    intro free
    split_ifs with hstop
    · exact .cancel popped hstop free
    · simp only [Bool.or_eq_true, not_or, Bool.not_eq_true] at hstop
      exact .accept room popped free hstop.1 hstop.2
  rcases hb : c.inherited[i]? with _ | _ | reason
  · exact hfree (by simp [hb])
  · exact hfree (by simp [hb])
  · exact .inherit popped hb

theorem coordinate_step (p : Plan) (c : Coordinator) : Step p c (nextDeed? p c) (coordinate p c) := by
  by_cases room : c.inFlight < workers p
  · cases hp : c.frontier.pop? with
    | some next => simpa [coordinate, room, hp] using launch_step room hp
    | none => simpa [coordinate, nextDeed?, room, hp] using receive_step p c
  · simpa [coordinate, nextDeed?, room] using receive_step p c

theorem turn_step (p : Plan) (c : Coordinator) (t : Turn) : Step p c (deed? p c t) (turn p c t) := by
  cases t with
  | coordinate => exact coordinate_step p c
  | answer position o =>
    cases h : c.running[position]? with
    | none =>
      simp only [deed?, turn, Coordinator.answer, h, Option.map_none]
      exact .rest c.site
    | some i =>
      simp only [deed?, turn, Coordinator.answer, h, Option.map_some]
      exact .answer o h
  | change site => exact .rest site

theorem nextDeed?_ne_answer (p : Plan) (c : Coordinator) (i : Nat) (o : Outcome) :
    nextDeed? p c ≠ some (.answer i o) := by
  unfold nextDeed?
  split
  · split
    · simp
    · split <;> simp
  · cases c.arrived <;> simp

theorem follow_append (p : Plan) (c : Coordinator) (ts us : List Turn) :
    follow p c (ts ++ us) = follow p (follow p c ts) us := List.foldl_append

/-- The turns of a move: the worker changes what is shared and then answers. -/
def turnsOf (p : Plan) (c : Coordinator) : Move → List Turn
  | .coordinate => [.coordinate]
  | .work position =>
    match (c.running[position]?).bind p.graph.task? with
    | none => []
    | some t =>
      let result := evaluate p.catalog p.config t c.site
      [.change result.2, .answer position result.1]
  | .cancel => [.change (cancel c).site]

theorem follow_turnsOf (p : Plan) (c : Coordinator) (m : Move) :
    follow p c (turnsOf p c m) = move p c m := by
  cases m with
  | coordinate => rfl
  | work position =>
    cases hr : c.running[position]? with
    | none => simp [turnsOf, move, work, hr, follow]
    | some i =>
      cases ht : p.graph.task? i with
      | none => simp [turnsOf, move, work, hr, ht, follow]
      | some t => simp [turnsOf, move, work, hr, ht, follow, turn, Coordinator.answer]
  | cancel => rfl

/-- The turns of one move after the other. -/
def turnsAlong (p : Plan) : Coordinator → List Move → List Turn
  | _, [] => []
  | c, m :: ms => turnsOf p c m ++ turnsAlong p (move p c m) ms

theorem follow_turnsAlong (p : Plan) (c : Coordinator) (moves : List Move) :
    follow p c (turnsAlong p c moves) = run p c moves := by
  induction moves generalizing c with
  | nil => rfl
  | cons m moves ih =>
    rw [turnsAlong, follow_append, follow_turnsOf, ih]
    rfl

theorem exists_follow_eq_run (p : Plan) (c : Coordinator) (moves : List Move) :
    ∃ turns, run p c moves = follow p c turns := ⟨_, (follow_turnsAlong p c moves).symm⟩

end Coordinator

end SlotBuild
