/-
  The table of a search: the best path with its rewards.

  A table has three columns: the actions after an empty one for the root, the
  rewards, and the times at which each depth was reached.  Its rows pair the
  entries by position and stop with the shortest column.
-/

namespace ScheduleSearch

structure Step where
  action : String
  reward : Float
  elapsed : Float

/-- The best path found by a search. -/
structure Table where
  actions : List String
  rewards : List Float
  times : List Float

namespace Table

def ofRows (rows : List Step) : Table where
  actions := rows.map (·.action)
  rewards := rows.map (·.reward)
  times := rows.map (·.elapsed)

def rows (t : Table) : List Step :=
  t.actions.zipWith (fun action (r : Float × Float) => ⟨action, r.1, r.2⟩)
    (t.rewards.zip t.times)

/-- The actions after the root. -/
def path (t : Table) : List String :=
  t.actions.drop 1

def finalReward? (t : Table) : Option Float :=
  t.rewards.getLast?

/-- The rows of `t` and then those of `next`, whose root is the end of `t`:
    its first row is dropped and its times are shifted. -/
def concat (t next : Table) (offset : Float) : Table :=
  ofRows (t.rows ++ (next.rows.drop 1).map fun r => { r with elapsed := r.elapsed + offset })

theorem rows_ofRows (rows : List Step) : (ofRows rows).rows = rows := by
  induction rows with
  | nil => rfl
  | cons r rows ih => simpa [ofRows, Table.rows] using ih

theorem length_rows (t : Table) :
    t.rows.length = min t.actions.length (min t.rewards.length t.times.length) := by
  simp [rows]

end Table

end ScheduleSearch
