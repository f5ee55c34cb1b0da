import MotionControl.Segment.Basic

/-!
# Events

Followers of the motion subscribe to the kinds of event they care about. A `Bus` is the registry:
a short table of handlers per kind, called in the order of registration.
-/

namespace MotionControl

/-- Something a follower of the motion may want to know. -/
inductive Event where
  /-- the step generator started a segment -/
  | began (segment : Segment)
  /-- a segment is complete and its commands have run -/
  | ended (segment : Segment)
  /-- the step rate changed -/
  | speedChanged (rate nominalRate : UInt32)
  /-- new work was queued -/
  | wokeUp
  /-- a command is due -/
  | commandDue (command : Command)

/-- The kinds of events. -/
inductive EventKind where
  /-- a segment begins -/
  | began
  /-- a segment ends -/
  | ended
  /-- the step rate changes -/
  | speedChanged
  /-- there is new work -/
  | wokeUp
  /-- a command is due -/
  | commandDue
  deriving DecidableEq, Repr

/-- The kind of an event. -/
def Event.kind : Event → EventKind
  | began _ => .began
  | ended _ => .ended
  | speedChanged .. => .speedChanged
  | wokeUp => .wokeUp
  | commandDue _ => .commandDue

/-- A rate as a fraction of the nominal rate; zero if there is no nominal rate. -/
def Event.speedFraction (rate nominalRate : UInt32) : Float32 :=
  if nominalRate = 0 then 0 else rate.toFloat32 / nominalRate.toFloat32

/-- Why a handler cannot be registered. -/
inductive BusError where
  /-- the kind already has four handlers -/
  | full
  deriving DecidableEq, Repr

/-- The name shown for the cause. -/
def BusError.name : BusError → String
  | full => "Full"

/-- The handlers of every kind, in the order of registration. -/
structure Bus (η : Type) where
  /-- the handlers of one kind -/
  handlers : EventKind → List η

namespace Bus

variable {η : Type}

/-- No handlers. -/
def empty : Bus η := ⟨fun _ => []⟩

/-- Register a handler for one kind; each kind takes four. -/
def subscribe (b : Bus η) (kind : EventKind) (handler : η) : Except BusError (Bus η) :=
  if (b.handlers kind).length < 4 then
    .ok ⟨fun k => if k = kind then b.handlers k ++ [handler] else b.handlers k⟩
  else .error .full

/-- The calls that an event leads to, in order. -/
def publish (b : Bus η) (e : Event) : List (η × Event) :=
  (b.handlers e.kind).map fun h => (h, e)

/-- The number of handlers of a kind. -/
def subscribers (b : Bus η) (kind : EventKind) : Nat := (b.handlers kind).length

theorem subscribers_le_of_subscribe {b c : Bus η} {kind : EventKind} {h : η}
    (hb : ∀ k, b.subscribers k ≤ 4) (hc : b.subscribe kind h = .ok c) (k : EventKind) :
    c.subscribers k ≤ 4 := by
  unfold subscribe at hc
  split at hc
  · next hlt =>
    rw [← Except.ok.inj hc]
    unfold subscribers
    dsimp only
    split
    · next hk => rw [hk, List.length_append]; exact hlt
    · exact hb k
  · cases hc

end Bus

end MotionControl
