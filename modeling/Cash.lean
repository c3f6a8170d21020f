import Cash.Lib.Bytes
import Cash.Lib.Dict
import Cash.Lib.Io
import Cash.Lib.Prog
import Cash.Lib.Py
import Cash.Lib.Run
import Cash.Lib.Threads
import Cash.Tiered.Theorems
import Cash.Args.Theorems
import Cash.Arrow.Theorems
import Cash.Bulk.Theorems
import Cash.Calls.Flight
import Cash.Calls.Theorems
import Cash.Canon.Theorems
import Cash.ChunkCopy.Theorems
import Cash.Copies.Paths
import Cash.Copies.Theorems
import Cash.Edges.Theorems
import Cash.Dependency.Theorems
import Cash.Entry.Theorems
import Cash.Iteration.Theorems
import Cash.Iters.Theorems
import Cash.Files.Theorems
import Cash.Loops.Theorems
import Cash.Plain.Theorems
import Cash.Rng.Theorems
import Cash.Sets.Theorems
import Cash.Split.Theorems
import Cash.Store.Theorems
import Cash.Streams.Lemmas.Replay
import Cash.StoredKeys.Theorems
import Cash.Streams.Theorems
import Cash.Writes.Theorems
import Cash.Upstream.Theorems.Bindings
import Cash.Upstream.Theorems.CellRun
import Cash.Upstream.Theorems.Simulation
import Cash.Lineage.Theorems
import Cash.Census.Key
import Cash.Census.Lemmas.Code
import Cash.Payload.Call
import Cash.Payload.Lemmas.Walk
import Cash.Payload.Lemmas.Fast
import Cash.Payload.Theorems.Fast
import Cash.Lineage.Aliases
import Cash.Bytecode.Theorems
import Cash.Control.Theorems
import Cash.Kept.Theorems
import Cash.Opens.Theorems
import Cash.Slots.Pruned
import Cash.S3.Theorems
import Cash.Expiry.Theorems
import Cash.Flat.Theorems
import Cash.Deep.Theorems
import Cash.Watch.Theorems
import Cash.Ram.Theorems
import Cash.Ram.Pressure
import Cash.Parts.Theorems
import Cash.Evict.Theorems
import Cash.Rows.Theorems
import Cash.Settings.Theorems
import Cash.Held.Theorems
