import RouteTable.Failure
import RouteTable.FileSystem
import RouteTable.Watch

namespace RouteTable

/-- Events so close together that one build answers all of them, with what others have made of the files by the
end of it, and how many characters of a table the disk then takes if not all. -/
structure Burst where
  events : List Event
  meanwhile : FileSystem → FileSystem
  room? : Option Nat

inductive Refusal where
  | runtime (cause : Text)
  | watcher (fault : Text)
  | folder (cause : Text)

def Refusal.failure (pagesDir : Text) : Refusal → Failure
  | runtime cause => .noRuntime cause
  | watcher fault => .noWatcher fault
  | folder cause => .unwatchable pagesDir cause

/-- What a run depends on beside its arguments and the files: how many characters of a table the disk takes if not
all, what is refused to a watch, and the bursts of events up to the moment when a watch is stopped. -/
structure Host where
  room? : Option Nat
  refusal? : Option Refusal
  bursts : List Burst

def Host.calm : Host := ⟨none, none, []⟩

end RouteTable
