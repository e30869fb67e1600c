import AppleTalk.Node.ZoneList
import AppleTalk.Session.Transactions

/-!
# Messages

What a frontend makes of completed transactions (`session.rs`): a reply from the zone information
socket is read as ZIP's, anything else is handed on as it is. A report of dropped frames empties the
reassembler, since any gap could be in any transaction.
-/

namespace AppleTalk

/-- A message reassembled from several datagrams. -/
inductive Message
  | unclassified (t : Transaction)
  | zip (z : ZipAtp)
  deriving DecidableEq, Repr

/-- Drop everything in flight. -/
def Transactions.flush (_ : Transactions) : Transactions := { «open» := .empty }

/-- Owns every reassembler. -/
structure Session where
  transactions : Transactions

namespace Session

def new : Session := { transactions := .new }

variable (order : List (TxnKey × Partial) → List (TxnKey × Partial))

/-- What a completed transaction is. The responder's socket is its source socket. -/
def classify (t : Transaction) : Message :=
  if t.key.srcSocket = ZIS then
    match ZipAtp.parseReply t.userBytes t.data with
    | some z => .zip z
    | none => .unclassified t
  else .unclassified t

/-- Feed one packet in. -/
def push (s : Session) («at» : Instant) (p : Packet) : Session × List Message :=
  let r := s.transactions.push order «at» p
  ({ transactions := r.1 }, (r.2.map classify).toList)

def flush (s : Session) : Session := { transactions := s.transactions.flush }

end Session

end AppleTalk
