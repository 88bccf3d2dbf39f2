/-
  Tables on the wire: an array of rows, each an array of an action, a reward
  and a number of seconds.
-/
import ScheduleSearch.Json.Number
import ScheduleSearch.Json.Writer
import ScheduleSearch.Search.Table

namespace ScheduleSearch

def Step.toJson (r : Step) : String :=
  Json.writeArray [Json.writeText r.action, Json.writeFloat r.reward, Json.writeFloat r.elapsed]

/-- The row of an array of three. -/
def Step.ofJson? : Json.Value → Option Step
  | .array [action, reward, elapsed] => do
    return ⟨← action.text?, ← reward.float?, ← elapsed.float?⟩
  | _ => none

namespace Table

def toJson (t : Table) : String :=
  Json.writeArray (t.rows.map Step.toJson)

def ofJson? (s : String) : Option Table :=
  match Json.Value.read? s.toUTF8.data.toList with
  | some (.array rows) => (rows.mapM Step.ofJson?).map ofRows
  | _ => none

end Table

end ScheduleSearch
