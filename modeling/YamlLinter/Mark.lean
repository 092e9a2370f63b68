/-!
# Positions in a source

A mark names a place between two characters of a source in two ways at once: by the bytes before it
and by line and column.

## Contents

* `Mark`: byte offset, line and column, all counted from zero;
* `Mark.after`: the mark behind one more character;
* `Mark.ofText`: the mark behind a whole text.
-/

namespace YamlLinter

/-- A place in a source. Lines and columns count from zero, columns count characters. -/
structure Mark where
  /-- The number of bytes before the place. -/
  index : Nat
  /-- The number of line breaks before the place. -/
  line : Nat
  /-- The number of characters between the last line break and the place. -/
  column : Nat
  deriving Repr, DecidableEq, Inhabited

namespace Mark

/-- The start of every source. -/
def origin : Mark := ⟨0, 0, 0⟩

/-- Whether a character ends a line, given the character behind it: a carriage return leaves that to
a line feed right after it. -/
def endsLine (c next : Char) : Bool :=
  c == '\n' || c == '\u0085' || c == '\u2028' || c == '\u2029' || (c == '\r' && next != '\n')

/-- The mark behind the character `c` that `next` follows. A byte order mark takes no column. -/
def after (m : Mark) (c next : Char) : Mark :=
  { index := m.index + c.utf8Size
    line := if endsLine c next then m.line + 1 else m.line
    column :=
      if endsLine c next then 0
      else if c == '\ufeff' then m.column
      else m.column + 1 }

/-- The mark behind `text`, which starts at `m` and is followed by `next`. -/
def advance (m : Mark) : (text : List Char) → (next : Char) → Mark
  | [], _ => m
  | c :: cs, next => (m.after c (cs.headD next)).advance cs next

/-- The mark behind `text` when it starts a source and `next` follows it. -/
def ofText (text : List Char) (next : Char) : Mark :=
  origin.advance text next

end Mark

end YamlLinter
