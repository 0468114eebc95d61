import WordC.Text.Rune
/-!
Tables drawn with ASCII lines.

A column is as wide as its widest cell, header included.  The title stands in a
box of its own above the header, and goes on in further lines when the table is
too narrow for it.
-/

namespace WordC

structure Table.Column where
  header : Text
  /-- Numbers are set to the right. -/
  numeric : Bool

structure Table where
  title : Text
  columns : List Table.Column
  rows : List (List Text)

namespace Table

/-- A cell set in its column. -/
def pad (numeric : Bool) (width : Nat) (cell : Text) : Text :=
  let fill := Text.spaces (width - cell.length)
  if numeric then fill ++ cell else cell ++ fill

def widths (t : Table) : List Nat :=
  t.rows.foldl (fun ws row => ws.zipWith (fun w cell => max w cell.length) row)
    (t.columns.map (·.header.length))

def line (cells : List Text) : Text :=
  utf8 "|" ++ cells.flatMap (fun c => utf8 " " ++ c ++ utf8 " |")

/-- A rule with a joint at every column edge. -/
def rule (widths : List Nat) : Text :=
  utf8 "+" ++ widths.flatMap fun w => List.replicate (w + 2) 45 ++ utf8 "+"

def row (columns : List (Column × Nat)) (cells : List Text) : Text :=
  line (columns.zipWith (fun (c, w) cell => pad c.numeric w cell) cells)

/-- The room for a title between the edges of a table. -/
def titleWidth (widths : List Nat) : Nat := widths.foldl (fun n w => n + w + 3) 0 - 3

/-- At most `count` pieces of `width` bytes, the last with what is left. -/
def pieces (width : Nat) : Nat → Text → List Text
  | 0, _ => []
  | count + 1, t => if t.length ≤ width then [t] else t.take width :: pieces width count (t.drop width)

/-- A title cut at the width of its table. -/
def titleLines (width : Nat) (title : Text) : List Text :=
  (pieces width (title.length + 1) title).map fun piece => line [pad false width (Text.trim piece)]

def lines (t : Table) : List Text :=
  let widths := t.widths
  let columns := t.columns.zip widths
  let room := titleWidth widths
  [rule [room]] ++ titleLines room t.title ++
    [rule widths, row columns (t.columns.map (·.header)), rule widths] ++ t.rows.map (row columns) ++
    [rule widths]

def render (t : Table) : Text := Text.join [Byte.newline] t.lines

end Table
end WordC
