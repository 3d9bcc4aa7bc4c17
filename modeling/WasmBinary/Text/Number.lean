/-! Numbers as the output writes them: hexadecimal digits and padding to a width. -/
namespace WasmBinary.Text

/-- Spaces after the text, up to `width` characters in all. -/
def padRight (width : Nat) (s : String) : String :=
  s ++ String.ofList (List.replicate (width - s.length) ' ')

/-- The character `c` before the text, up to `width` characters in all. -/
def padLeft (width : Nat) (c : Char) (s : String) : String :=
  String.ofList (List.replicate (width - s.length) c) ++ s

/-- Lower-case hexadecimal digits, without leading zeros. -/
def hexDigits (n : Nat) : String :=
  String.ofList (Nat.toDigits 16 n)

/-- An offset: `0x` and its digits. -/
def offset (n : Nat) : String :=
  "0x" ++ hexDigits n

/-- An offset in a column: `0x` and at least eight digits. -/
def offsetColumn (n : Nat) : String :=
  "0x" ++ padLeft 8 '0' (hexDigits n)

/-- A byte: `0x` and two upper-case digits. -/
def byte (b : UInt8) : String :=
  "0x" ++ (padLeft 2 '0' (hexDigits b.toNat)).map Char.toUpper

end WasmBinary.Text
