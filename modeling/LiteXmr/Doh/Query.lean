/-
LiteXmr.Doh.Query — the query that `doh.rs` sends.

`build_dns_query` writes whatever text it is given: the length of a label goes
into one byte with `as u8`, and an empty label is written like any other.
-/
import LiteXmr.Rust.Str

namespace LiteXmr

/-- One round of the `for label in hostname.split('.')` loop. -/
def queryLabel (label : String) : Bytes := UInt8.ofNat (Str.len label) :: Str.asBytes label

/-- The id, the flags (recursion desired) and the four counts. -/
def queryHeader : Bytes :=
  Bytes.beOfNat 2 0x1234 ++ (Bytes.beOfNat 2 0x0100 ++ (Bytes.beOfNat 2 1 ++ List.replicate 6 0))

def buildDnsQuery (hostname : String) (qtype : UInt16) : Bytes :=
  queryHeader ++ ((Str.split hostname '.').flatMap queryLabel
    ++ ([0] ++ (Bytes.beOfNat 2 qtype.toNat ++ Bytes.beOfNat 2 1)))

end LiteXmr
