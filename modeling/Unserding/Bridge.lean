import Unserding.Dealer
import Unserding.Router

/-!
# From router to dealer

A router in tcp mode writes packets one behind the other, and the dealer takes
what one `recv` gives it for a packet and shuts the connection.  So one piece of
the stream is published, as it was cut.
-/

namespace Unserding

open Foundation

structure Write where
  pkt : Bytes
  ws : Nat → SendRes

def Write.accepted (r : Router) (w : Write) : Bytes :=
  (subCb (some w.pkt) w.ws r).parts.flatten

def stream (r : Router) (writes : List Write) : Bytes :=
  writes.flatMap fun w => w.accepted r

def datagrams (ok : Nat → Bool) : Nat → SendRes :=
  fun n => if ok n then .full else .fail

structure Piece where
  bytes : Bytes
  ok : Nat → Bool

def serve (i : Nat) : Dealer → List Piece → List Bytes
  | _, [] => []
  | d, piece :: rest =>
      if (d.conns i).active then
        let r := dlrDataCb i (some piece.bytes) (datagrams piece.ok) d
        r.2 ++ serve i r.1 rest
      else []

theorem stream_of_full {r : Router} {writes : List Write}
    (hfull : ∀ w ∈ writes, w.accepted r = w.pkt) :
    stream r writes = (writes.map Write.pkt).flatten := by
  rw [stream, List.flatMap_def, List.map_congr_left hfull]

theorem forward_datagrams (buf : Bytes) (left : Nat) (ok : Nat → Bool) :
    ((∀ n < left, ok n = false) ∧ forward buf left (datagrams ok) = []) ∨
    (¬ (∀ n < left, ok n = false) ∧
      forward buf left (datagrams ok) = [buf]) := by
  induction left generalizing ok with
  | zero => exact .inl ⟨fun n hn => absurd hn (by omega), rfl⟩
  | succ left ih =>
      cases hok : ok 0 with
      | true =>
          refine .inr ⟨fun hall => ?_, ?_⟩
          · rw [hall 0 (Nat.succ_pos _)] at hok
            contradiction
          · simp [forward, datagrams, hok, sendto]
      | false =>
          have hstep : forward buf (left + 1) (datagrams ok) =
              forward buf left (datagrams fun n => ok (n + 1)) := by
            have hfail : datagrams ok 0 = .fail := by simp [datagrams, hok]
            rw [forward, hfail]
            rfl
          have hshift : (∀ n < left + 1, ok n = false) ↔
              ∀ n < left, ok (n + 1) = false := by
            refine ⟨fun hall n hn => hall (n + 1) (by omega), fun hall n hn => ?_⟩
            cases n with
            | zero => exact hok
            | succ n => exact hall n (by omega)
          rw [hstep, hshift]
          exact ih fun n => ok (n + 1)

theorem serve_cons {i : Nat} {d : Dealer} (htcp : d.proto = .tcp)
    (hlive : (d.conns i).active = true) (piece : Piece) (rest : List Piece) :
    serve i d (piece :: rest) =
      redirect (some piece.bytes) (datagrams piece.ok) := by
  have hshut : ((d.clo i).conns i).active = false := by
    rw [Dealer.clo, htcp]
    change (Function.update d.conns i (evIoShut (d.conns i)).1 i).active = false
    rw [Function.update_self]
    rfl
  have hrest : serve i (d.clo i) rest = [] := by
    cases rest with
    | nil => rfl
    | cons piece' rest =>
        rw [serve, hshut]
        rfl
  simp only [serve, hlive, if_true, dlrDataCb, hrest, List.append_nil]

/--
All the dealer publishes are packets of the router if and only if the first
piece of the stream ends where it is one of them, or is not published at all.
-/
theorem bridge_republishes_iff (r : Router) {d : Dealer} {i : Nat}
    (htcp : d.proto = .tcp) (hlive : (d.conns i).active = true)
    {writes : List Write} (hfull : ∀ w ∈ writes, w.accepted r = w.pkt)
    {pieces : List Piece}
    (hsize : ∀ piece ∈ pieces, 0 < piece.bytes.length ∧
      piece.bytes.length ≤ 1492)
    (hcut : (pieces.map Piece.bytes).flatten <+: stream r writes) :
    (∀ dgram ∈ serve i d pieces, dgram ∈ writes.map Write.pkt) ↔
      ∀ piece ∈ pieces.head?, (∀ n < maxRetr, piece.ok n = false) ∨
        (writes.map Write.pkt).flatten.take piece.bytes.length ∈
          writes.map Write.pkt := by
  cases pieces with
  | nil => exact iff_of_true (fun _ h => by contradiction) (by simp)
  | cons piece rest =>
      obtain ⟨hpos, hle⟩ := hsize piece List.mem_cons_self
      rw [stream_of_full hfull, List.map_cons, List.flatten_cons] at hcut
      have hfirst : (writes.map Write.pkt).flatten.take piece.bytes.length =
          piece.bytes := by
        obtain ⟨tail, htail⟩ := hcut
        rw [← htail, List.append_assoc, List.take_left]
      have hbuf : piece.bytes.take fwdMtu = piece.bytes :=
        List.take_of_length_le hle
      rw [serve_cons htcp hlive, redirect_of_length hpos, hbuf]
      simp only [List.head?_cons, Option.mem_some_iff, forall_eq', hfirst]
      rcases forward_datagrams piece.bytes maxRetr piece.ok with
        ⟨hfail, hnil⟩ | ⟨hsent, hone⟩
      · rw [hnil]
        exact iff_of_true (fun _ h => by contradiction) (.inl hfail)
      · rw [hone]
        simp only [List.mem_singleton, forall_eq, hsent, false_or]

def served : Dealer := Dealer.enroll 5 (Dealer.init .tcp)

theorem bridge_republishes_iff_witness :
    serve 0 served [⟨[1], fun _ => true⟩, ⟨[2], fun _ => true⟩] ⊆
      [[1], [2]] :=
  (@bridge_republishes_iff (Router.init .tcp ∅) served 0 rfl (by decide)
    [⟨[1], fun _ => .full⟩, ⟨[2], fun _ => .full⟩] (by decide)
    [⟨[1], fun _ => true⟩, ⟨[2], fun _ => true⟩] (by decide)
    (by decide)).mpr (by decide)

/-- Two packets come in one piece and go out as one. -/
theorem not_bridge_republishes :
    ¬ ∀ (r : Router) (d : Dealer) (i : Nat) (writes : List Write)
      (pieces : List Piece), d.proto = .tcp → (d.conns i).active = true →
      (∀ w ∈ writes, w.accepted r = w.pkt) →
      (pieces.map Piece.bytes).flatten <+: stream r writes →
      ∀ dgram ∈ serve i d pieces, dgram ∈ writes.map Write.pkt := by
  intro h
  have hall := h (Router.init .tcp ∅) served 0
    [⟨[1], fun _ => .full⟩, ⟨[2], fun _ => .full⟩] [⟨[1, 2], fun _ => true⟩] rfl
    (by decide) (by decide) (by decide) [1, 2] (by decide)
  exact absurd hall (by decide)

end Unserding
