/-!
# Lines of bytes

Input is bytes. A line ends at a line feed, which is dropped together with a carriage return right
before it; what stands after the last line feed is a line too, unless it is empty. Whether a line
is UTF-8 text is a question of that line alone.
-/

namespace StackCalc.Text

def lineFeed : UInt8 := 10

def carriageReturn : UInt8 := 13

def dropCarriageReturn (line : List UInt8) : List UInt8 :=
  if line.getLast? = some carriageReturn then line.dropLast else line

def splitLines (bytes : List UInt8) : List (List UInt8) :=
  match _h : bytes.dropWhile (· != lineFeed) with
  | [] => if bytes = [] then [] else [bytes]
  | _ :: rest => dropCarriageReturn (bytes.takeWhile (· != lineFeed)) :: splitLines rest
termination_by bytes.length
decreasing_by
  have := (List.dropWhile_sublist (l := bytes) (· != lineFeed)).length_le
  simp only [_h, List.length_cons] at this
  omega

def decode? (bytes : List UInt8) : Option String := String.fromUTF8? bytes.toByteArray

end StackCalc.Text
