import ZBid.Lib.CString
import ZBid.LinkedList

/-!
# Data of the server

The records of structs.h, the message types of protocol.h and the globals of server.c. A user
record lives in its node of `usersList`; an `auctions_t*` is the position of the record in the
store `auctions`, which only grows, because a closed auction is unlinked but never freed.

A step logs the messages it writes and, beside them, three kinds of history marks that the C code
does not keep: a bid it accepts, an auction it passes to `closeAuction`, and the exact value of
each settlement of a balance before it is stored in an int.
-/
namespace ZBid

open CInt CString

def bufferSize : Nat := 1024

inductive MsgType where
  | OK | LOGIN | LOGOUT | EUSRLGDIN | EWRNGPWD
  | ANCREATE | ANCLOSED | ANLIST | ANWATCH | ANLEAVE | ANBID | ANUPDATE
  | EANFULL | EANNOTFOUND | EANDENIED | EBIDLOW | EINVALIDARG
  | USRLIST | USRWINS | USRSALES | USRBLNC | ESERV
  deriving DecidableEq, Repr

def MsgType.code : MsgType → Nat
  | .OK => 0x00 | .LOGIN => 0x10 | .LOGOUT => 0x11 | .EUSRLGDIN => 0x1a | .EWRNGPWD => 0x1b
  | .ANCREATE => 0x20 | .ANCLOSED => 0x22 | .ANLIST => 0x23 | .ANWATCH => 0x24
  | .ANLEAVE => 0x25 | .ANBID => 0x26 | .ANUPDATE => 0x27
  | .EANFULL => 0x2b | .EANNOTFOUND => 0x2c | .EANDENIED => 0x2d | .EBIDLOW => 0x2e
  | .EINVALIDARG => 0x2f | .USRLIST => 0x32 | .USRWINS => 0x33 | .USRSALES => 0x34
  | .USRBLNC => 0x35 | .ESERV => 0xff

/-- A message handed to `wr_msg`: the header's type and length, and the text of the buffer. -/
structure Msg where
  fd : Int
  msgType : MsgType
  msgLen : Nat
  body : Text
  deriving DecidableEq, Repr

structure User where
  username : CharStar
  password : CharStar
  loginFlag : Bool
  balance : Int
  fd : Int
  auctionsOwned : LinkedList Nat
  auctionsWon : LinkedList Nat
  deriving DecidableEq, Repr

structure Auction where
  id : Int
  name : Text
  duration : Int
  binPrice : Int
  binFlag : Int
  bid : Int
  currentWinner : CharStar
  creator : CharStar
  watchers : LinkedList CharPtr
  numberOfWatchers : Int
  deriving DecidableEq, Repr

structure Job where
  jobBuffer : Text
  jobMsgType : Nat
  clientfd : Int
  deriving DecidableEq, Repr

/-- The globals, with the count of buffers `calloc` has handed out for logins (`blocks`) and the
descriptors that are open in the process. -/
structure Server where
  usersList : LinkedList User
  auctionsList : LinkedList Nat
  auctions : List Auction
  auctionID : Int
  tick : Int
  blocks : Nat
  openFds : List Int
  deriving DecidableEq, Repr

/-- The server as `main` leaves it, with the standard streams and the listening socket open. -/
def Server.start : Server where
  usersList := createList
  auctionsList := createList
  auctions := []
  auctionID := 0
  tick := 0
  blocks := 0
  openFds := [0, 1, 2, 3]

inductive Event where
  | sent (m : Msg)
  | accepted (auction : Nat) (bidder : CharStar) (amount : Int)
  | closed (auction : Nat)
  | debited (auction : Nat) (value : Int)
  | credited (auction : Nat) (value : Int)
  deriving DecidableEq, Repr

def Server.users (s : Server) : List User := s.usersList.nodes

def Server.setUser (s : Server) (i : Nat) (u : User) : Server :=
  { s with usersList := { s.usersList with nodes := s.usersList.nodes.set i u } }

def Server.setAuction (s : Server) (a : Nat) (auction : Auction) : Server :=
  { s with auctions := s.auctions.set a auction }

/-- A reply without a body. -/
def answer (fd : Int) (t : MsgType) : Event := .sent ⟨fd, t, 0, []⟩

/-- A message whose body is a text; its length counts the terminating NUL. -/
def message (fd : Int) (t : MsgType) (body : Text) : Event := .sent ⟨fd, t, body.length + 1, body⟩

/-- Concatenating past the end of a buffer of `BUFFER_SIZE` bytes is undefined. -/
def fits (body : Text) : Option Text := if body.length < bufferSize then some body else none

theorem fits_eq_some {body t : Text} (h : fits body = some t) : t = body := by
  simp only [fits] at h
  split at h
  · simpa using h.symm
  · cases h

end ZBid
