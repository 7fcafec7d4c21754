import Unserding.Forward
import Unserding.Foundation.CString

/-!
# Connection strings

The two functions `massage_conn`, of `ud-router.c` and of `ud-dealer.c`.  They
take the string apart in place: a pointer is an offset into the memory that the
string came in, and NULs are written over the characters that end a part.
-/

namespace Unserding

open Foundation

def colon : UInt8 := 0x3a

def bracket : UInt8 := 0x5d

def schemeEnd : Bytes := [0x3a, 0x2f, 0x2f]

def udpName : Bytes := [0x75, 0x64, 0x70]

def tcpName : Bytes := [0x74, 0x63, 0x70]

/-! ## The context -/

structure ConnCtx where
  proto : Proto
  host : Option Nat
  port : Option Nat
  deriving DecidableEq

inductive ConnErr where
  | cannotHandleProtocol (conn : Bytes)
  | noPortSpecified
  deriving DecidableEq

structure Massaged where
  ret : Int
  ctx : ConnCtx
  mem : Bytes
  err : Option ConnErr
  deriving DecidableEq

def Massaged.string (r : Massaged) (p : Option Nat) : Option Bytes :=
  p.map fun p => cstr 0 r.mem p

def Massaged.host (r : Massaged) : Option Bytes := r.string r.ctx.host

def Massaged.port (r : Massaged) : Option Bytes := r.string r.ctx.port

/-! ## The two copies -/

/--
The loop both copies begin with, which is left in its first round.  Returned is
where the rest of the string starts, unless the scheme is unknown.
-/
def massageScheme (ctx : ConnCtx) (mem : Bytes) (conn : Nat) :
    Except ConnErr Nat × ConnCtx × Bytes :=
  let ctx := { ctx with proto := .udp }
  match strstr schemeEnd (cstr 0 mem conn) with
  | none => (.ok conn, ctx, mem)
  | some p =>
      let mem := mem.set (conn + p) 0
      if cstr 0 mem conn = udpName then
        (.ok (conn + p + 3), { ctx with proto := .udp }, mem)
      else if cstr 0 mem conn = tcpName then
        (.ok (conn + p + 3), { ctx with proto := .tcp }, mem)
      else (.error (.cannotHandleProtocol (cstr 0 mem conn)), ctx, mem)

def Router.massageConn (ctx : ConnCtx) (mem : Bytes) (conn : Nat) :
    Massaged :=
  match massageScheme ctx mem conn with
  | (.error err, ctx, mem) => ⟨-1, ctx, mem, some err⟩
  | (.ok conn, ctx, mem) =>
      match strrchr colon (cstr 0 mem conn) with
      | none => ⟨-1, ctx, mem, some .noPortSpecified⟩
      | some port =>
          if strchr bracket (cstr 0 mem (conn + port)) ≠ none then
            ⟨-1, ctx, mem, some .noPortSpecified⟩
          else
            ⟨0, { ctx with host := some conn, port := some (conn + port + 1) },
              mem.set (conn + port) 0, none⟩

def Dealer.massageConn (ctx : ConnCtx) (mem : Bytes) (conn : Nat) :
    Massaged :=
  match massageScheme ctx mem conn with
  | (.error err, ctx, mem) => ⟨-1, ctx, mem, some err⟩
  | (.ok conn, ctx, mem) =>
      match strrchr colon (cstr 0 mem conn) with
      | none => ⟨0, { ctx with host := none, port := some conn }, mem, none⟩
      | some port =>
          if strchr bracket (cstr 0 mem (conn + port)) ≠ none then
            ⟨-1, ctx, mem, some .noPortSpecified⟩
          else
            ⟨0, { ctx with host := some conn, port := some (conn + port + 1) },
              mem.set (conn + port) 0, none⟩

/-! ## What a connection string says -/

/-- The part before the first `://`, as `schemeOf_eq_none_iff` and
`schemeOf_eq_some` say. -/
def schemeOf (s : Bytes) : Option Bytes :=
  (strstr schemeEnd s).map fun p => s.take p

def restOf (s : Bytes) : Bytes :=
  match strstr schemeEnd s with
  | none => s
  | some p => s.drop (p + 3)

def KnownScheme (scheme : Option Bytes) : Prop :=
  scheme = none ∨ scheme = some udpName ∨ scheme = some tcpName

instance (scheme : Option Bytes) : Decidable (KnownScheme scheme) :=
  inferInstanceAs (Decidable (_ ∨ _ ∨ _))

def schemeProto (scheme : Option Bytes) : Proto :=
  if scheme = some tcpName then .tcp else .udp

structure SplitsInto (rest host port : Bytes) : Prop where
  eq : host ++ colon :: port = rest
  colon : colon ∉ port
  bracket : bracket ∉ port

theorem schemeOf_eq_none_iff (s : Bytes) :
    schemeOf s = none ↔ ¬ schemeEnd <:+: s := by
  rw [schemeOf, Option.map_eq_none_iff, strstr_eq_none_iff]

theorem schemeOf_eq_some {s scheme : Bytes} (h : schemeOf s = some scheme) :
    s = scheme ++ schemeEnd ++ restOf s ∧
      ∀ j < scheme.length, ¬ schemeEnd <+: s.drop j := by
  obtain ⟨p, hfind, rfl⟩ := Option.map_eq_some_iff.mp h
  obtain ⟨hs, hfirst⟩ := strstr_eq_some hfind
  rw [restOf, hfind]
  exact ⟨hs, fun j hj => hfirst j (by simp at hj; omega)⟩

theorem exists_scheme {s : Bytes} {p : Nat} (h : strstr schemeEnd s = some p) :
    ∃ scheme rest, s = scheme ++ schemeEnd ++ rest ∧ scheme.length = p ∧
      schemeOf s = some scheme ∧ restOf s = rest := by
  obtain ⟨hs, -⟩ := strstr_eq_some h
  refine ⟨s.take p, s.drop (p + 3), hs, ?_, by rw [schemeOf, h]; rfl,
    by rw [restOf, h]⟩
  have hlen := congrArg List.length hs
  simp only [List.length_append, List.length_take, List.length_drop,
    schemeEnd, List.length_cons, List.length_nil] at hlen
  rw [List.length_take]
  omega

/--
A known scheme is cut off and the rest is read behind it; an unknown one ends
the call.
-/
theorem massageScheme_eq (s : CString (0 : UInt8)) (ctx : ConnCtx) :
    ∃ conn mem, Reads 0 mem conn (restOf s.chars) ∧
      massageScheme ctx s.mem 0 =
        if KnownScheme (schemeOf s.chars) then
          (.ok conn, { ctx with proto := schemeProto (schemeOf s.chars) }, mem)
        else
          (.error (.cannotHandleProtocol ((schemeOf s.chars).getD [])),
            { ctx with proto := .udp }, mem) := by
  have hreads := s.reads
  rw [massageScheme, hreads.cstr_eq]
  cases hfind : strstr schemeEnd s.chars with
  | none =>
      have hscheme : schemeOf s.chars = none := by rw [schemeOf, hfind]; rfl
      have hrest : restOf s.chars = s.chars := by rw [restOf, hfind]
      refine ⟨0, s.mem, by rwa [hrest], ?_⟩
      rw [hscheme, if_pos (.inl rfl)]
      rfl
  | some p =>
      obtain ⟨scheme, rest, hs, rfl, hscheme, hrest⟩ := exists_scheme hfind
      rw [hs, schemeEnd, List.append_assoc, List.cons_append] at hreads
      obtain ⟨hcut, htail⟩ := hreads.cut
      have hconn := htail.drop (u := [0x2f, 0x2f])
      refine ⟨0 + scheme.length + 3, _, hrest ▸ hconn, ?_⟩
      simp only [hcut.cstr_eq, hscheme]
      by_cases hudp : scheme = udpName
      · subst hudp
        rfl
      · by_cases htcp : scheme = tcpName
        · subst htcp
          rfl
        · have hunknown : ¬ KnownScheme (some scheme) := by
            simp [KnownScheme, hudp, htcp]
          rw [if_neg hudp, if_neg htcp, if_neg hunknown]
          rfl

/-! ## The last colon -/

section Tail

variable {mem rest : Bytes} {conn : Nat} (h : Reads 0 mem conn rest)

include h

theorem bracket_check {host port : Bytes} (hrest : rest = host ++ colon :: port) :
    strchr bracket (cstr 0 mem (conn + host.length)) ≠ none ↔
      bracket ∈ port := by
  subst hrest
  rw [h.drop.cstr_eq, ne_eq, strchr_eq_none_iff, not_not, List.mem_cons]
  exact or_iff_right (by decide)

theorem cut_at_colon {host port : Bytes} (hsplit : SplitsInto rest host port) :
    cstr 0 (mem.set (conn + host.length) 0) conn = host ∧
      cstr 0 (mem.set (conn + host.length) 0) (conn + host.length + 1) =
        port := by
  rw [← hsplit.eq] at h
  exact ⟨h.cut.1.cstr_eq, h.cut.2.cstr_eq⟩

variable {ctx₀ ctx : ConnCtx} {mem₀ : Bytes} {conn₀ : Nat}
  (hscheme : massageScheme ctx₀ mem₀ conn₀ = (.ok conn, ctx, mem))

include hscheme

theorem massageConn_noColon (hrest : colon ∉ rest) :
    Router.massageConn ctx₀ mem₀ conn₀ =
        ⟨-1, ctx, mem, some .noPortSpecified⟩ ∧
      Dealer.massageConn ctx₀ mem₀ conn₀ =
        ⟨0, { ctx with host := none, port := some conn }, mem, none⟩ := by
  have hfind := (strrchr_eq_none_iff colon rest).mpr hrest
  simp only [Router.massageConn, Dealer.massageConn, hscheme, h.cstr_eq, hfind,
    and_self]

theorem massageConn_bracketed {host port : Bytes}
    (hrest : rest = host ++ colon :: port) (hlast : colon ∉ port)
    (hbracket : bracket ∈ port) :
    Router.massageConn ctx₀ mem₀ conn₀ =
        ⟨-1, ctx, mem, some .noPortSpecified⟩ ∧
      Dealer.massageConn ctx₀ mem₀ conn₀ =
        Router.massageConn ctx₀ mem₀ conn₀ := by
  have hcheck := (bracket_check h hrest).mpr hbracket
  have hfind : strrchr colon (cstr 0 mem conn) = some host.length := by
    rw [h.cstr_eq, hrest]
    exact strrchr_append_cons host hlast
  simp only [Router.massageConn, Dealer.massageConn, hscheme, hfind,
    if_pos hcheck, and_self]

theorem massageConn_splits {host port : Bytes}
    (hsplit : SplitsInto rest host port) :
    Router.massageConn ctx₀ mem₀ conn₀ =
        ⟨0, ⟨ctx.proto, some conn, some (conn + host.length + 1)⟩,
          mem.set (conn + host.length) 0, none⟩ ∧
      Dealer.massageConn ctx₀ mem₀ conn₀ =
        Router.massageConn ctx₀ mem₀ conn₀ := by
  have hcheck := (bracket_check h hsplit.eq.symm).not.mpr hsplit.bracket
  have hfind : strrchr colon (cstr 0 mem conn) = some host.length := by
    rw [h.cstr_eq, ← hsplit.eq]
    exact strrchr_append_cons host hsplit.colon
  simp only [Router.massageConn, Dealer.massageConn, hscheme, hfind,
    if_neg hcheck, and_self]

end Tail

theorem massageConn_unknown {ctx₀ ctx : ConnCtx} {mem₀ mem : Bytes}
    {conn₀ : Nat} {err : ConnErr}
    (hscheme : massageScheme ctx₀ mem₀ conn₀ = (.error err, ctx, mem)) :
    Router.massageConn ctx₀ mem₀ conn₀ = ⟨-1, ctx, mem, some err⟩ ∧
      Dealer.massageConn ctx₀ mem₀ conn₀ =
        Router.massageConn ctx₀ mem₀ conn₀ := by
  simp only [Router.massageConn, Dealer.massageConn, hscheme, and_self]

inductive Tail (rest : Bytes) : Prop where
  | noColon (h : colon ∉ rest)
  | bracketed (host port : Bytes) (eq : rest = host ++ colon :: port)
      (colon : colon ∉ port) (bracket : bracket ∈ port)
  | splits (host port : Bytes) (h : SplitsInto rest host port)

theorem tail_cases (rest : Bytes) : Tail rest := by
  by_cases hcolon : colon ∈ rest
  · obtain ⟨host, port, hrest, hlast⟩ := exists_last hcolon
    by_cases hbracket : bracket ∈ port
    · exact .bracketed host port hrest hlast hbracket
    · exact .splits host port ⟨hrest.symm, hlast, hbracket⟩
  · exact .noColon hcolon

theorem SplitsInto.colon_mem {rest host port : Bytes}
    (h : SplitsInto rest host port) : Unserding.colon ∈ rest := by
  rw [← h.eq]
  exact List.mem_append_right _ List.mem_cons_self

theorem not_splits_of_bracketed {host port : Bytes} (hlast : colon ∉ port)
    (hbracket : bracket ∈ port) (host' port' : Bytes) :
    ¬ SplitsInto (host ++ colon :: port) host' port' := by
  intro h
  obtain ⟨-, rfl⟩ := eq_of_last h.colon hlast h.eq
  exact h.bracket hbracket

/--
What the two copies make of a string with this scheme and this rest: the router
accepts it just when the scheme is known and the rest splits at its last colon,
into the host and the port; the dealer does the same, but for a rest without a
colon, which is a port to it.
-/
structure MassagesExactly (scheme : Option Bytes) (rest : Bytes)
    (r d : Massaged) : Prop where
  accepts : r.ret = 0 ↔
    KnownScheme scheme ∧ ∃ host port, SplitsInto rest host port
  splits : r.ret = 0 → ∃ host port, r.host = some host ∧ r.port = some port ∧
    SplitsInto rest host port ∧ r.ctx.proto = schemeProto scheme
  portOnly : KnownScheme scheme → colon ∉ rest → r.ret = -1 ∧ d.ret = 0 ∧
    d.host = none ∧ d.port = some rest ∧ d.ctx.proto = schemeProto scheme
  agree : ¬ (KnownScheme scheme ∧ colon ∉ rest) → d = r

section Exact

variable {ctx : ConnCtx} {mem₀ mem rest : Bytes} {conn₀ conn : Nat}
  {scheme : Option Bytes}

theorem unknown_exact {ctx' : ConnCtx} {err : ConnErr}
    (hunknown : ¬ KnownScheme scheme)
    (hscheme : massageScheme ctx mem₀ conn₀ = (.error err, ctx', mem)) :
    MassagesExactly scheme rest (Router.massageConn ctx mem₀ conn₀)
      (Dealer.massageConn ctx mem₀ conn₀) := by
  obtain ⟨hr, hd⟩ := massageConn_unknown hscheme
  refine ⟨iff_of_false ?_ fun h => hunknown h.1, ?_,
    fun h => absurd h hunknown, fun _ => hd⟩
  · simp [hr]
  · simp [hr]

variable (h : Reads 0 mem conn rest)
  (hscheme : massageScheme ctx mem₀ conn₀ =
    (.ok conn, { ctx with proto := schemeProto scheme }, mem))

include h hscheme

theorem noColon_exact (hknown : KnownScheme scheme) (hcolon : colon ∉ rest) :
    MassagesExactly scheme rest (Router.massageConn ctx mem₀ conn₀)
      (Dealer.massageConn ctx mem₀ conn₀) := by
  obtain ⟨hr, hd⟩ := massageConn_noColon h hscheme hcolon
  have hport : cstr 0 mem conn = rest := h.cstr_eq
  refine ⟨iff_of_false ?_ ?_, ?_, fun _ _ => ?_,
    fun h => absurd ⟨hknown, hcolon⟩ h⟩
  · simp [hr]
  · exact fun ⟨_, _, _, hsplit⟩ => hcolon hsplit.colon_mem
  · simp [hr]
  · simp [hr, hd, Massaged.host, Massaged.port, Massaged.string, hport]

theorem bracketed_exact {host port : Bytes} (hrest : rest = host ++ colon :: port)
    (hlast : colon ∉ port) (hbracket : bracket ∈ port) :
    MassagesExactly scheme rest (Router.massageConn ctx mem₀ conn₀)
      (Dealer.massageConn ctx mem₀ conn₀) := by
  obtain ⟨hr, hd⟩ := massageConn_bracketed h hscheme hrest hlast hbracket
  have hnone : ¬ ∃ host port, SplitsInto rest host port := by
    rintro ⟨host', port', hsplit⟩
    rw [hrest] at hsplit
    exact not_splits_of_bracketed hlast hbracket host' port' hsplit
  have hmem : colon ∈ rest :=
    hrest ▸ List.mem_append_right host List.mem_cons_self
  refine ⟨iff_of_false ?_ fun h => hnone h.2, ?_,
    fun _ hcolon => absurd hmem hcolon, fun _ => hd⟩
  · simp [hr]
  · simp [hr]

theorem splits_exact (hknown : KnownScheme scheme) {host port : Bytes}
    (hsplit : SplitsInto rest host port) :
    MassagesExactly scheme rest (Router.massageConn ctx mem₀ conn₀)
      (Dealer.massageConn ctx mem₀ conn₀) := by
  obtain ⟨hr, hd⟩ := massageConn_splits h hscheme hsplit
  obtain ⟨hhost, hport⟩ := cut_at_colon h hsplit
  refine ⟨iff_of_true ?_ ⟨hknown, host, port, hsplit⟩,
    fun _ => ⟨host, port, ?_, ?_, hsplit, ?_⟩,
    fun _ hcolon => absurd hsplit.colon_mem hcolon, fun _ => hd⟩
  · simp [hr]
  · simp [hr, Massaged.host, Massaged.string, hhost]
  · simp [hr, Massaged.port, Massaged.string, hport]
  · simp [hr]

end Exact

/-- Both copies of `massage_conn` are exact on every string. -/
theorem massage_conn_exact (s : CString (0 : UInt8)) (ctx : ConnCtx) :
    MassagesExactly (schemeOf s.chars) (restOf s.chars)
      (Router.massageConn ctx s.mem 0) (Dealer.massageConn ctx s.mem 0) := by
  obtain ⟨conn, mem, hreads, hscheme⟩ := massageScheme_eq s ctx
  by_cases hknown : KnownScheme (schemeOf s.chars)
  · rw [if_pos hknown] at hscheme
    cases tail_cases (restOf s.chars) with
    | noColon hcolon => exact noColon_exact hreads hscheme hknown hcolon
    | bracketed host port hrest hlast hbracket =>
        exact bracketed_exact hreads hscheme hrest hlast hbracket
    | splits host port hsplit =>
        exact splits_exact hreads hscheme hknown hsplit
  · rw [if_neg hknown] at hscheme
    exact unknown_exact hknown hscheme

end Unserding
