namespace LinkedCache.Text

-- The characters with the Unicode property White_Space.
def isBlank (c : Char) : Bool :=
  let n := c.toNat
  (9 ≤ n && n ≤ 13) || n == 0x20 || n == 0x85 || n == 0xA0 || n == 0x1680
    || (0x2000 ≤ n && n ≤ 0x200A) || n == 0x2028 || n == 0x2029 || n == 0x202F || n == 0x205F
    || n == 0x3000

def words (s : String) : List String :=
  ((s.toList.splitOnP isBlank).filter (!·.isEmpty)).map String.ofList

-- The lines of a text. A line ends at a line feed, which takes a carriage return before it along;
-- what follows the last line feed is a line if it is not empty.
def lines (s : String) : List String :=
  match (s.toList.splitOn '\n').reverse with
  | [] => []
  | last :: ended =>
    let whole := ended.reverse.map fun l => String.ofList <|
      match l.reverse with
      | '\r' :: r => r.reverse
      | _ => l
    if last.isEmpty then whole else whole ++ [String.ofList last]

end LinkedCache.Text
