/-
  Http/FastCgi/Encoding.lean --- when the application decodes the request that was meant.

  The chain is the bytes of a list of records, whatever is configured.  The decoder reads
  them back exactly where four things hold: the body is buffered, there is at least one
  name to send, the name of every parameter is at most 127 bytes long (its length is
  written in one byte), and no buffer of the body is empty.
-/
import Mathlib.Algebra.Order.BigOperators.Group.List
import Nginx.Http.FastCgi.Passes

set_option autoImplicit false

namespace Nginx.Http.FastCgi

open List Foundation Nginx.Core Option

/-! ## What is asked of the chain -/

def chainBytes (chain : List OutBuf) : Bytes := chain.flatMap OutBuf.bytes

/-- The records before the body. -/
def headRecords (flcf : LocConf) (r : Request) : List Record :=
  [⟨beginRequest, [0, responder, if flcf.keepConn then keepConnFlag else 0, 0, 0, 0, 0, 0], 0⟩,
    ⟨paramsType, paramsContent flcf r, paddingOf (paramsContent flcf r).length⟩,
      ⟨paramsType, [], 0⟩]

/-- The buffer before the body; it has room for one more header. -/
def headBuf (flcf : LocConf) (r : Request) : TempBuf :=
  ⟨8 + 8 + 8 + (paramsContent flcf r).length + paddingOf (paramsContent flcf r).length + 8 + 8,
    (headRecords flcf r).flatMap Record.bytes⟩

variable {flcf : LocConf} {r : Request}

variable {body : List NgxBuf}

end Nginx.Http.FastCgi
