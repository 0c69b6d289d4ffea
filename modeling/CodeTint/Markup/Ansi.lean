import CodeTint.Text

/-!
# Terminal markup

Control bytes other than tab, line feed and carriage return are written as their
control pictures (`U+2400` and on), so a source cannot send control sequences of
its own. A picture that stands in the source is written after `U+2426`, which
keeps the escaping reversible. A styled piece stands between an SGR sequence and
a reset.
-/

namespace CodeTint.Ansi

def esc : UInt8 := 0x1B

def del : UInt8 := 0x7F

/-- The third byte of the picture of `del`. -/
def delPicture : UInt8 := 0xA1

/-- The third byte of the character that marks a picture of the source. -/
def literalMark : UInt8 := 0xA6

/-- The three bytes of a picture. -/
def picture (third : UInt8) : Bytes :=
  [0xE2, 0x90, third]

/-- Control bytes that a terminal would act on. -/
def isHidden (b : UInt8) : Bool :=
  (b < 0x20 && b != 0x09 && b != Byte.lineFeed && b != Byte.carriageReturn) || b == del

/-- The third byte of the picture at the front, if one stands there. -/
def picture? : Bytes → Option UInt8
  | first :: second :: third :: _ =>
      if first == 0xE2 && second == 0x90 && 0x80 ≤ third && third ≤ literalMark then some third
      else none
  | _ => none

/-- The picture of a hidden control byte. -/
def pictureOf (b : UInt8) : Bytes :=
  picture (if b == del then delPicture else 0x80 + b)

def escape : Bytes → Bytes
  | [] => []
  | b :: rest =>
      if isHidden b then pictureOf b ++ escape rest
      else
        match picture? (b :: rest) with
        | some third => picture literalMark ++ picture third ++ escape (rest.drop 2)
        | none => b :: escape rest
termination_by text => text.length

/-- Reads the pictures `escape` writes; any other byte stays. -/
def restore : Bytes → Bytes
  | [] => []
  | b :: rest =>
      match picture? (b :: rest) with
      | none => b :: restore rest
      | some third =>
          if third == literalMark && 3 ≤ (rest.drop 2).length then
            (rest.drop 2).take 3 ++ restore (rest.drop 5)
          else if third ≤ 0x9F then (third - 0x80) :: restore (rest.drop 2)
          else if third == delPicture then del :: restore (rest.drop 2)
          else b :: restore rest
termination_by text => text.length
decreasing_by
  all_goals
    simp only [List.length_drop, List.length_cons]
    omega

def hasPicture : Bytes → Bool
  | [] => false
  | b :: rest => (picture? (b :: rest)).isSome || hasPicture rest

/-- Undoes `escape`; a text without pictures is returned at once. -/
def unescape (escaped : Bytes) : Bytes :=
  if hasPicture escaped then restore escaped else escaped

/-- Leaves out every SGR sequence; one that is not finished runs to the end. -/
def stripSgr : Bytes → Bytes
  | [] => []
  | b :: rest =>
      if b == esc then stripSgr ((rest.dropWhile (· != 0x6D)).drop 1) else b :: stripSgr rest
termination_by bytes => bytes.length
decreasing_by
  · have kept := (List.dropWhile_sublist (l := rest) (· != 0x6D)).length_le
    simp only [List.length_drop, List.length_cons]
    omega
  · simp

/-- The source of a rendered text. -/
def toSource (rendered : Bytes) : Bytes :=
  unescape (stripSgr rendered)

def openSequence (style : String) : Bytes :=
  [esc, 0x5B] ++ Text.bytes style ++ [0x6D]

def reset : Bytes :=
  [esc, 0x5B, 0x30, 0x6D]

end CodeTint.Ansi
