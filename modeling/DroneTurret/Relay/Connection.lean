import DroneTurret.Relay.Scanner

/-!
# Relaying one message

What `clnt_connection` makes of one `read`, and what `send_msg` writes for it. A message is relayed
slot by slot, by a test of the slot's `fd` and id and a write to that `fd`; the two requests
`IDLIST` and `GETTIME` are answered with one write to the sender.

`msg_info.fd` is a `char`, so the descriptor an answer goes to is the sender's modulo 256. A NULL
destination is compared by `send_msg`, which is undefined; a NULL body is printed as `(null)`.
-/

namespace DroneTurret

namespace Relay

open CString

/-- `MSG_INFO`. The sender's id is in the text already. -/
structure MsgInfo where
  fd : ℤ
  dest : List Byte
  msg : List Byte
  deriving DecidableEq

/-- The conversion of an `int` to `char`. -/
def toChar (fd : ℤ) : ℤ := Int.bmod fd 256

/-- `sprintf(to_msg, "[%s]%s", msg_info.from, pArray[1])`. -/
def toMsg (sender : List Byte) (body : Option (List Byte)) : List Byte :=
  bytes "[" ++ sender ++ bytes "]" ++ body.getD (bytes "(null)")

/-- What `clnt_connection` hands to `send_msg` for the bytes it has read. `none` is a NULL
destination. -/
def msgInfo (client : ClientInfo) (s : Scanner) (rd : List Byte) : Option MsgInfo :=
  (s.clear.firstTwo rd).1.map fun dest =>
    ⟨toChar client.fd, dest, toMsg client.id.val (s.clear.firstTwo rd).2⟩

/-- A message to every client. -/
def allmsg : List Byte := bytes "ALLMSG"

/-- The request for the list of ids. -/
def idlist : List Byte := bytes "IDLIST"

/-- The request for the time. -/
def gettime : List Byte := bytes "GETTIME"

/-- Is the message answered rather than relayed? -/
def MsgInfo.isRequest (info : MsgInfo) : Prop := info.dest = idlist ∨ info.dest = gettime

instance (info : MsgInfo) : Decidable info.isRequest := inferInstanceAs (Decidable (_ ∨ _))

/-- The test and the write of `send_msg` for one slot. -/
def slotWrite (t : Table) (info : MsgInfo) (i : Fin maxClnt) : Option (ℤ × List Byte) :=
  if (t i).fd ≠ -1 ∧ (info.dest = allmsg ∨ info.dest = (t i).id.val) then
    some ((t i).fd, info.msg)
  else none

/-- The answer to `IDLIST`: the text without its last byte, and the ids of the slots logged in. -/
def idlistText (t : Table) (msg : List Byte) : List Byte :=
  msg.dropLast ++
    ((List.finRange maxClnt).map fun i =>
      if (t i).fd ≠ -1 then (t i).id.val ++ bytes " " else []).flatten ++ bytes "\n"

/-- The answer to a request, `localtime` being what `getlocaltime` prints. -/
def replyText (t : Table) (info : MsgInfo) (localtime : List Byte) : List Byte :=
  if info.dest = idlist then idlistText t info.msg else localtime

/-- A message by id is written to the slots of that id only. -/
theorem slotWrite_of_ne_allmsg {t : Table} {info : MsgInfo} {i : Fin maxClnt} {fd : ℤ}
    {text : List Byte} (h : slotWrite t info i = some (fd, text)) (hdest : info.dest ≠ allmsg) :
    (t i).fd = fd ∧ info.dest = (t i).id.val := by
  rw [slotWrite] at h
  split_ifs at h with hslot
  exact ⟨congrArg Prod.fst (Option.some.inj h), hslot.2.resolve_left hdest⟩

end Relay

end DroneTurret
