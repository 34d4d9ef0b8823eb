import BehaviorTree.NodeHash

/-!
# Trace events

Plain records of what happened during a tick, kept in a log, handed to a sink,
or both.  Tracing never feeds back into execution.
-/

namespace BehaviorTree

/-- One event of a trace.  Tags follow the convention `bt.<what>`. -/
structure TraceEvent where
  tick : UInt64
  tag : String
  node : Option NodeHash
  detail : String
deriving DecidableEq, Inhabited

/-- Events in the order in which they were emitted. -/
structure TraceLog where
  events : Array TraceEvent := #[]
deriving DecidableEq, Inhabited

namespace TraceLog

def push (log : TraceLog) (event : TraceEvent) : TraceLog :=
  ⟨log.events.push event⟩

/-- The events with the given tag, in order. -/
def withTag (log : TraceLog) (tag : String) : Array TraceEvent :=
  log.events.filter (·.tag = tag)

end TraceLog

/-- A receiver of events outside the log, with what it has kept of them.  It may keep
what it likes: one that keeps every event has all that another one could work with. -/
structure TraceSink where
  /-- What is kept once an event has been received, given what was kept before. -/
  keep : Array TraceEvent → TraceEvent → Array TraceEvent
  events : Array TraceEvent := #[]
deriving Inhabited

namespace TraceSink

/-- A sink that keeps nothing more. -/
def discard (events : Array TraceEvent) : TraceSink := { keep := fun kept _ => kept, events }

/-- A sink that keeps every event. -/
def collect (events : Array TraceEvent) : TraceSink := { keep := Array.push, events }

def receive (event : TraceEvent) (sink : TraceSink) : TraceSink :=
  { sink with events := sink.keep sink.events event }

end TraceSink

/-- The trace channel of a blackboard: an optional log and an optional sink. -/
structure Tracer where
  log : Option TraceLog := none
  sink : Option TraceSink := none
deriving Inhabited

namespace Tracer

/-- A tracer that keeps a log. -/
def recording : Tracer := { log := some {} }

def isCollecting (tracer : Tracer) : Bool :=
  tracer.log.isSome || tracer.sink.isSome

def emit (tracer : Tracer) (event : TraceEvent) : Tracer :=
  { log := tracer.log.map (·.push event)
    sink := tracer.sink.map (·.receive event) }

/-- Hands out the log and starts an empty one in its place. -/
def takeLog (tracer : Tracer) : Option TraceLog × Tracer :=
  (tracer.log, { tracer with log := tracer.log.map fun _ => {} })

end Tracer

end BehaviorTree
