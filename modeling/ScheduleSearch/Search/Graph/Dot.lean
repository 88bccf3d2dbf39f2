/-
  The drawing of a search graph in the DOT language.

  One line for each node in the order of the fingerprints, then one for each
  edge in insertion order; the best path is red and bold.
-/
import ScheduleSearch.Search.Graph.Basic

namespace ScheduleSearch.Dot

/-- One character inside a quoted string: a line break is the escape for one,
    and a carriage return is dropped. -/
def escapeChar (c : Char) : List Char :=
  if c = '\\' then ['\\', '\\']
  else if c = '"' then ['\\', '"']
  else if c = '\n' then ['\\', 'n']
  else if c = '\r' then []
  else [c]

/-- A text between quotes, as it is. -/
def enclosed (s : String) : String :=
  "\"" ++ s ++ "\""

/-- A text between quotes, with escapes. -/
def quoted (s : String) : String :=
  enclosed (String.ofList (s.toList.flatMap escapeChar))

/-- What is added to the attributes on the best path. -/
def bestMark (onBestPath : Bool) : String :=
  if onBestPath then ", color=red, penwidth=3" else ""

def nodeLine (n : Node) : String :=
  "  " ++ enclosed n.fingerprint.short ++ " [label=" ++ quoted n.label ++ ", fillcolor=" ++
    enclosed n.fillColor ++ bestMark n.onBestPath ++ "];\n"

def edgeLine (e : Edge) : String :=
  "  " ++ enclosed e.source.short ++ " -> " ++ enclosed e.target.short ++ " [label=" ++
    quoted e.action ++ bestMark e.onBestPath ++ "];\n"

end Dot

def Graph.dot (g : Graph) : String :=
  "digraph search \x7b\n  node [shape=box, style=filled, fontname=\"monospace\"];\n" ++
    String.join (g.nodeList.map Dot.nodeLine) ++
    String.join (g.edges.toList.map Dot.edgeLine) ++ "\x7d\n"

end ScheduleSearch
