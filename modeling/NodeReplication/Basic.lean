import Mathlib.Logic.Function.Basic

/-!
# Identifiers, log entries and the replicated object

Node replication keeps one replica of a deterministic sequential object per node and orders
all updates through a shared log. The two state machines of the development, the cyclic buffer
and the unbounded log, share the identifiers and the log entries defined here.

Node ids, logical log indices and request ids (`NodeId`, `LogIdx`, `ReqId` of the source's
`types`) are natural numbers throughout.

* `LogEntry`: an update operation and the node that placed it in the log.
* `NRState`: the replicated object, through the three operations the log uses, and `counter`,
  the object of the examples.
-/

namespace NodeReplication

/-- An entry of the log: an update and the node that placed it. -/
structure LogEntry (UpdateOp : Type) where
  op : UpdateOp
  nodeId : ℕ

/-- The replicated object (`NRState` of the source's `types`): an initial state, a read-only
query and an update, which returns the new state and its result. -/
class NRState (S : Type) (UpdateOp ReadonlyOp ReturnType : outParam Type) where
  init : S
  read : S → ReadonlyOp → ReturnType
  update : S → UpdateOp → S × ReturnType

/-- A counter: an update adds one and returns the count before it, a read returns the count. -/
instance counter : NRState ℕ Unit Unit ℕ where
  init := 0
  read c _ := c
  update c _ := (c + 1, c)

end NodeReplication
