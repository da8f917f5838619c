/-! Pictures of a place in a text: the line of the place behind its number, and below it carets and a caption. How
a text is cut into lines and how a picture is drawn is the business of whoever draws it. -/
namespace ScriptEval

/-- Whoever draws pictures: tells the row and the column of an offset in a text, gives a row of a text, and draws
so many carets below a column of a line, with a margin in front and a caption behind. -/
structure Sketcher where
  place (text : String) (offset : Int) : Int × Int
  line (text : String) (row : Int) : String
  draw (line : String) (column : Int) (width : Nat) (margin caption : String) : String

/-- The number of a row, after a blank or a minus sign and right-aligned to six columns, and a bar. -/
def margin (row : Int) : String :=
  let number := (if row < 0 then '-' else ' ') :: Nat.toDigits 10 row.natAbs
  String.ofList (number.leftpad 6 ' ' ++ [' ','|'])

/-- A break ends with the character at `j`: a line feed, or a carriage return that no line feed follows. -/
def BreakAt (s : List Char) (j : Nat) : Prop :=
  s[j]? = some '\n' ∨ s[j]? = some '\r' ∧ s[j + 1]? ≠ some '\n'

instance (s : List Char) (j : Nat) : Decidable (BreakAt s j) := by
  unfold BreakAt; infer_instance

def breakEnds (s : List Char) : List Nat := ((List.range s.length).filter (BreakAt s ·)).map (· + 1)

/-- The start of the text, the end of every break, and the end of the text. -/
def bounds (s : List Char) : List Nat := 0 :: (breakEnds s ++ [s.length])

def slice (s : List Char) (a b : Nat) : List Char := (s.take b).drop a

/-- The entry at a place, which is counted from the end if it is negative. -/
def nth? (ms : List Nat) (k : Int) : Option Nat :=
  if k < 0 then ms.reverse[k.natAbs - 1]? else ms[k.toNat]?

def before (l : List Char) (column : Int) : List Char :=
  l.take (if column < 0 then l.length + column else column).toNat

/-- The blank characters: white space and the four separators among the control characters. -/
def blanks : List Nat :=
  [0x9,0xa,0xb,0xc,0xd,0x1c,0x1d,0x1e,0x1f,0x20,0x85,0xa0,0x1680,0x2000,0x2001,0x2002,0x2003,0x2004,0x2005,
   0x2006,0x2007,0x2008,0x2009,0x200a,0x2028,0x2029,0x202f,0x205f,0x3000]

def stripEnd (s : List Char) : List Char := (s.reverse.dropWhile fun c => blanks.contains c.toNat).reverse

def below (s : List Char) : List Char := s.map fun c => if c = '\t' then '\t' else ' '

/-- The sketcher that cuts texts after carriage returns and line feeds. An offset before the text counts from the
end of it, on a row zero that shows the first line. -/
def Sketcher.plain : Sketcher where
  place text offset :=
    let ms := bounds text.toList
    let row := (ms.dropLast.countP fun (b : Nat) => (b : Int) ≤ offset : Nat)
    (row,offset - (nth? ms (row - 1)).getD 0)
  line text row :=
    let ms := bounds text.toList
    let k := max 0 (row - 1)
    String.ofList (slice text.toList ((nth? ms k).getD 0) ((nth? ms (k + 1)).getD 0))
  draw line column width margin caption :=
    let l := line.toList
    let m := margin.toList
    let carets := (max 1 (min (width : Int) (l.length - column))).toNat
    String.ofList (m ++ stripEnd l ++ '\n' :: (below (m ++ before l column) ++
      List.replicate carets '^' ++ ' ' :: caption.toList))

end ScriptEval
