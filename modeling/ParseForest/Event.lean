import ParseForest.Rejection

/-!
# `ParseForest.Event`: what the passes tell about their work

A pass may tell what it does while it does it. It tells it in `Event`s, which
the caller receives beside the answer as a `Told` value, in the order in which
they came about. Nothing is told by a pass that ends in a fault: the fault is
all there is then.
-/

set_option autoImplicit false

namespace ParseForest

/-- Something a pass tells about its work. -/
inductive Event
  /-- The first `top` nodes of an array were packed, and `kept` are left. -/
  | packed (top kept : Nat)
  /-- An array was found to be no tree. -/
  | rejected (reason : Rejection)
  /-- A collecting node took in the siblings before it. -/
  | absorbed (collector : NodeId) (count : Nat) (parent : NodeId)
deriving DecidableEq, Repr

/-- How much detail a reader wants to see before an event is of interest. -/
inductive Level
  | debug
  | trace
deriving DecidableEq, Repr

/-- The name under which a level is listed. -/
def Level.display : Level → String
  | debug => "DEBUG"
  | trace => "TRACE"

namespace Event

/-- What is told once for an array is of more interest than what is told once
for a node. -/
def level : Event → Level
  | packed _ _ => .debug
  | rejected _ => .debug
  | absorbed _ _ _ => .trace

/-- The wording of an event. -/
def message : Event → String
  | packed top kept => "packed " ++ Nat.repr top ++ " nodes into " ++ Nat.repr kept
  | rejected reason => "rejecting node array: " ++ reason.message
  | absorbed collector count parent =>
    "node " ++ collector.display ++ " absorbed " ++ Nat.repr count ++ " siblings under " ++
      parent.display

/-- The line of a listing: the level, a blank, the wording. -/
def display (event : Event) : String :=
  event.level.display ++ " " ++ event.message

end Event

/-- An answer, and what was told on the way to it, first things first. -/
structure Told (α : Type) where
  answer : α
  events : Array Event
deriving DecidableEq, Repr

end ParseForest
