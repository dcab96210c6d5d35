/-! Fixed-width hexadecimal text. -/
namespace KeyedLog.Text

/-- The low `n` hexadecimal digits of a number, most significant first. -/
def hexDigits : Nat → Nat → List Char
  | 0, _ => []
  | n + 1, x => Nat.digitChar (x >>> (4 * n) % 16) :: hexDigits n x

def hexWord (w : UInt64) : String :=
  String.ofList (hexDigits 16 w.toNat)

end KeyedLog.Text
