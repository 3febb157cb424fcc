/-
LiteXmr.Error — the error type of `error.rs` with its display texts, as far
as the stratum client raises and prints it.
-/
import Mathlib.Tactic.Common

namespace LiteXmr

/-- `std::io::ErrorKind`, with the kinds the client distinguishes. -/
inductive IoErrorKind where
  | unexpectedEof
  | connectionReset
  | connectionAborted
  | other
  deriving DecidableEq, Repr

structure IoError where
  kind : IoErrorKind
  text : String
  deriving DecidableEq, Repr

inductive Error where
  | network (msg : String)
  | stratum (msg : String)
  | io (e : IoError)
  | json (text : String)
  deriving DecidableEq, Repr

/-- The `#[error(..)]` display texts. -/
def Error.toString : Error → String
  | .network msg => "网络错误: " ++ msg
  | .stratum msg => "Stratum 协议错误: " ++ msg
  | .io e => "I/O 错误: " ++ e.text
  | .json text => "JSON 解析错误: " ++ text

end LiteXmr
