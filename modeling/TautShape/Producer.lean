import TautShape.Log.Stops
import TautShape.Atom.Stops
import TautShape.Swmr.Stops
import TautShape.Stream.Stops
/-!
# The producer of an engine

Four engines keep their readers in three ways, and tell their producers alike.
-/

namespace TautShape

open TautShape.Lib
open TautShape.Log (StopWhen)

/-- **The `ProducerStop` law.**  In every run of every engine, `LastReaderGone` is told
exactly where the last live stream goes, by its end or by a Dropped answer, and only under
`LastReader`; `Closed` or `Failed` is told by the first close, as its last output, and by
no other input. -/
theorem producer_stop_law :
    (∀ config : Log.Config, Log.signals.Lawful Log.LogNode.handle (.new config)
      Log.LogNode.streamCount (config.stopWhen = .lastReader)) ∧
    (∀ stopWhen : StopWhen, Atom.signals.Lawful Atom.AtomNode.handle (.new stopWhen)
      (fun n => n.readers.streams.size) (stopWhen = .lastReader)) ∧
    (∀ (stopWhen : StopWhen) (maxDeltas : Option Nat),
      Swmr.signals.Lawful Swmr.SwmrNode.handle (.new stopWhen maxDeltas)
        (fun n => n.readers.streams.size) (stopWhen = .lastReader)) ∧
    ∀ (capacityRecords : Nat) (capacity_pos : 0 < capacityRecords) (stopWhen : StopWhen),
      Stream.signals.Lawful Stream.StreamNode.handle
        (.new capacityRecords capacity_pos stopWhen) (fun n => n.readers.size)
        (stopWhen = .lastReader) :=
  ⟨Log.lawful, Atom.lawful, Swmr.lawful, Stream.lawful⟩

/-- A slow reader is overtaken, and is the last one to be dropped. -/
theorem producer_stop_law_dropped :
    let n := Stream.run 1 Nat.one_pos .lastReader
      [.read "a" ⟨none, none, some 0⟩, .push [1], .push [2]]
    Stop.deserted ∈ Stream.signals.stops (n.handle (.read "a" ⟨none, none, none⟩)).2 := by
  intro n
  have hlaw := (producer_stop_law.2.2.2 1 Nat.one_pos .lastReader
    [.read "a" ⟨none, none, some 0⟩, .push [1], .push [2]]).2 (.read "a" ⟨none, none, none⟩)
  exact hlaw.deserted.mpr ⟨rfl, by decide, by decide⟩

end TautShape
