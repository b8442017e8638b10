import Agoo.Err
import Agoo.GqlText
import Agoo.Numbers

/-!
# Bind URLs (`bind.c`)

A URL is cut at its first colon, which need not be the one before the port. `bindUrl_iff`: which URLs are bound to
the address and the port that they name, or refused.
-/

namespace Agoo

namespace BindUrl

/-! ## The code -/

abbrev Addr4 := UInt8 × UInt8 × UInt8 × UInt8

/-- What a bind is to listen on. -/
inductive Addr
  | v4 (a : Addr4)
  | v6 (a : Bytes)
  | name (s : Bytes)
  deriving DecidableEq, Repr

/-- `INADDR_ANY`. -/
def anyAddr : Addr4 := (0, 0, 0, 0)

/-- Four numbers with dots. -/
def quadText (a : Addr4) : Bytes :=
  decimal a.1.toNat ++ chr '.' :: (decimal a.2.1.toNat ++ chr '.' :: (decimal a.2.2.1.toNat ++ chr '.' ::
    decimal a.2.2.2.toNat))

/-- `inet_aton`, and `inet_pton` and `inet_ntop` for `AF_INET6`: what the texts of addresses stand for. -/
structure Libc where
  aton : Bytes → Option Addr4
  pton6 : Bytes → Option Bytes
  ntop6 : Bytes → Bytes
  quad : ∀ a, aton (quadText a) = some a
  localhost : aton (bytes "localhost") = none
  bracket : ∀ s, aton (chr '[' :: s) = none
  /-- At most 45 digits, dots and colons, the first colon behind at most four digits and not the last byte. -/
  text6 : ∀ s a, pton6 s = some a → s.length < 46 ∧ 0 ∉ s ∧ chr '[' ∉ s ∧ chr ']' ∉ s ∧
    ∃ front rest, s = front ++ chr ':' :: rest ∧ chr ':' ∉ front ∧ front.length ≤ 4 ∧ rest ≠ []

inductive Kind
  | http
  | https
  deriving DecidableEq, Repr

/-- `struct _agooBind`. -/
structure Bind where
  port : ℤ
  addr : Addr
  id : Bytes
  kind : Kind
  deriving DecidableEq, Repr

/-- What comes of a URL; it may be read behind its end. -/
inductive Result
  | bind (b : Bind)
  | error (e : Err)
  | outside
  deriving DecidableEq, Repr

variable (lib : Libc)

/-- `atoi`. -/
def atoi (s : Bytes) : ℤ := toInt (strtol s)

def notValid (scheme url : Bytes) : Result :=
  .error (errSet .arg (scheme ++ bytes " bind address is not valid. (" ++ url ++ bytes ")"))

def tooLong (scheme url : Bytes) : Result :=
  .error (errSet .arg (scheme ++ bytes " bind address is not valid, too long. (" ++ url ++ bytes ")"))

/-- The bind of `url_tcp` and `url_ssl`. -/
def bind4 (kind : Kind) (scheme : Bytes) (a : Addr4) (port : ℤ) : Result :=
  .bind ⟨port, .v4 a, (scheme ++ bytes "://" ++ quadText a ++ bytes ":" ++ intText port).take 63, kind⟩

/-- `url_tcp`. -/
def urlTcp (url scheme : Bytes) : Result :=
  match url.idxOf? (chr ':') with
  | none => bind4 .http scheme anyAddr 80
  | some colon =>
    if colon + 1 = url.length then bind4 .http scheme anyAddr 80
    else if 15 < colon then tooLong scheme url
    else if colon = 0 then bind4 .http scheme anyAddr (atoi (url.drop 1))
    else
      let host := if strncmp (bytes "localhost") url 9 then bytes "127.0.0.1" else url.take colon
      match lib.aton host with
      | none => notValid scheme url
      | some a => bind4 .http scheme a (atoi (url.drop (colon + 1)))

/-- `url_tcp6`. Without a bracket, it reads what is behind `NULL`. -/
def urlTcp6 (url scheme : Bytes) : Result :=
  match url.idxOf? (chr ']') with
  | none => .outside
  | some last =>
    let port := if at0 url (last + 1) = chr ':' then atoi (url.drop (last + 2)) else 80
    if 256 < last then .outside
    else
      match lib.pton6 ((url.drop 1).take (last - 1)) with
      | none => notValid scheme url
      | some a => .bind ⟨port, .v6 a,
          (scheme ++ bytes "://[" ++ lib.ntop6 a ++ bytes "]:" ++ intText port).take 255, .http⟩

/-- `url_named`. -/
def urlNamed (url : Bytes) : Result :=
  if url = [] then .error (errSet .arg (bytes "Named Unix sockets names must not be empty."))
  else .bind ⟨0, .name url, (bytes "unix://" ++ url).take 1022, .http⟩

/-- `url_ssl`; `ctx` is whether there is a certificate. -/
def urlSsl (ctx : Bool) (url : Bytes) : Result :=
  if ctx = false then
    .error (errSet .arg (bytes "https requires an SSL certificate and private key. (" ++ url ++ bytes ")"))
  else
    match url.idxOf? (chr ':') with
    | none => bind4 .https (bytes "https") anyAddr 443
    | some colon =>
      if 15 < colon then tooLong (bytes "https") url
      else if colon = 0 then bind4 .https (bytes "https") anyAddr (atoi (url.drop 1))
      else
        match lib.aton (url.take colon) with
        | none => notValid (bytes "https") url
        | some a => bind4 .https (bytes "https") a (atoi (url.drop (colon + 1)))

/-- `url_tcp6` for what begins with a bracket, else `url_tcp`. -/
def urlHost (url scheme : Bytes) : Result :=
  if at0 url 0 = chr '[' then urlTcp6 lib url scheme else urlTcp lib url scheme

/-- Where no scheme is known, what is before a colon at the start is taken for one. -/
def urlOther (url : Bytes) : Result :=
  match url.idxOf? (chr ':') with
  | none => urlTcp lib url (bytes "http")
  | some slen =>
    if slen < 8 then
      if url.length < slen + 3 then .outside else urlHost lib (url.drop (slen + 3)) (url.take slen)
    else urlTcp lib url (bytes "http")

/-- `agoo_bind_url`. -/
def bindUrl (ctx : Bool) (url : Bytes) : Result :=
  if strncasecmp (bytes "tcp://") url 6 then urlHost lib (url.drop 6) (bytes "tcp")
  else if strncasecmp (bytes "http://") url 7 then urlHost lib (url.drop 7) (bytes "http")
  else if strncasecmp (bytes "unix://") url 7 then urlNamed (url.drop 7)
  else if strncasecmp (bytes "https://") url 8 then urlSsl lib ctx (url.drop 8)
  else if strncasecmp (bytes "ssl://") url 6 then urlSsl lib ctx (url.drop 6)
  else urlOther lib url

/-! ## The law -/

inductive Scheme
  | tcp
  | http
  | https
  | ssl
  | none
  deriving DecidableEq, Repr

def Scheme.text : Scheme → Bytes
  | .tcp => bytes "tcp://"
  | .http => bytes "http://"
  | .https => bytes "https://"
  | .ssl => bytes "ssl://"
  | .none => []

def Scheme.port : Scheme → ℕ
  | .https => 443
  | .ssl => 443
  | _ => 80

/-- The host of a URL. -/
inductive Host
  | v4 (a : Addr4)
  | localhost
  | empty
  | v6 (text addr : Bytes) (h : lib.pton6 text = some addr)

variable {lib}

def Host.text : Host lib → Bytes
  | .v4 a => quadText a
  | .localhost => bytes "localhost"
  | .empty => []
  | .v6 text _ _ => bytes "[" ++ text ++ bytes "]"

def Host.addr : Host lib → Addr
  | .v4 a => .v4 a
  | .localhost => .v4 (127, 0, 0, 1)
  | .empty => .v4 anyAddr
  | .v6 _ addr _ => .v6 addr

variable (lib)

/-- A URL: a scheme in letters of any case, a host and, if it has one, the digits of a port. -/
structure Url where
  start : Bytes
  scheme : Scheme
  same : start.map tolower = scheme.text
  host : Host lib
  port : Option { ds : Bytes // ds ≠ [] ∧ ∀ c ∈ ds, isDigit c = true }

variable {lib}

def Url.portText (u : Url lib) : Bytes := u.port.elim [] fun ds => chr ':' :: ds.1

def Url.text (u : Url lib) : Bytes := u.start ++ (u.host.text ++ u.portText)

/-- The port that is named, or the one of the scheme. -/
def Url.portNum (u : Url lib) : ℕ := u.port.elim u.scheme.port fun ds => digitsVal ds.1

/-- The bind is for the address and the port of the URL, or there is an error. -/
def Result.Honours (u : Url lib) : Result → Prop
  | .bind b => b.addr = u.host.addr ∧ b.port = u.portNum
  | .error _ => True
  | .outside => False

/-! ## Which URLs are honoured -/

def Host.isV6 : Host lib → Bool
  | .v6 _ _ _ => true
  | _ => false

/-- The port is an `int`. -/
def Url.PortFits (u : Url lib) : Prop := ∀ ds, u.port = some ds → digitsVal ds.1 < 0x80000000

/-- What is before the colon is not looked at without a port. -/
def Url.GoodTcp (u : Url lib) : Prop :=
  u.PortFits ∧ (u.port = none → u.host.isV6 = true ∨ u.host.addr = .v4 anyAddr)

/-- IPv6 addresses and `localhost:` are refused. -/
def Url.GoodSsl (u : Url lib) : Prop :=
  u.host.isV6 = true ∨ (u.host.text = bytes "localhost" ∧ u.port ≠ none) ∨
    u.PortFits ∧ (u.port = none → u.host.addr = .v4 anyAddr)

/-- A text that `url_tcp` refuses. -/
def Refused (lib : Libc) (s : Bytes) : Prop :=
  ∃ front rest, s = front ++ chr ':' :: rest ∧ chr ':' ∉ front ∧ rest ≠ [] ∧
    (15 < front.length ∨ front ≠ [] ∧ strncmp (bytes "localhost") s 9 = false ∧ lib.aton front = none)

/-- Without a scheme, up to seven bytes before a colon are taken for one and three bytes are skipped. Then
the address is any one and the port 80, if the URL does not end before. -/
def Url.GoodPlain (u : Url lib) : Prop :=
  if u.host.isV6 then
    ∃ front rest, u.text = front ++ chr ':' :: rest ∧ chr ':' ∉ front ∧ Refused lib (rest.drop 2)
  else if u.port = none then u.host.addr = .v4 anyAddr
  else if u.host.text.length < 8 then
    u.host.addr = .v4 anyAddr ∧ u.portNum = 80 ∧ 3 ≤ u.portText.length
  else u.PortFits

def Url.Good (ctx : Bool) (u : Url lib) : Prop :=
  match u.scheme with
  | .tcp => u.GoodTcp
  | .http => u.GoodTcp
  | .https => ctx = true → u.GoodSsl
  | .ssl => ctx = true → u.GoodSsl
  | .none => u.GoodPlain

/-! ## Texts -/

theorem idxOf_append {c : Byte} {front : Bytes} (h : c ∉ front) (rest : Bytes) :
    (front ++ c :: rest).idxOf? c = some front.length := by
  induction front with
  | nil => simp [List.idxOf?_cons]
  | cons d front ih =>
    rw [List.mem_cons, not_or] at h
    rw [List.cons_append, List.idxOf?_cons, ih h.2, if_neg]
    · rfl
    · exact fun hd => h.1 (beq_iff_eq.mp hd).symm

theorem idxOf_none {c : Byte} {s : Bytes} (h : c ∉ s) : s.idxOf? c = none := List.idxOf?_eq_none_iff.mpr h

/-- A byte of four numbers with dots is a digit or a dot. -/
theorem quadText_bytes (a : Addr4) : ∀ c ∈ quadText a, isDigit c = true ∨ c = chr '.' := by
  unfold quadText
  intro c hc
  simp only [List.mem_append, List.mem_cons] at hc
  rcases hc with hc | rfl | hc | rfl | hc | rfl | hc
  · exact .inl (isDigit_decimal hc)
  · exact .inr rfl
  · exact .inl (isDigit_decimal hc)
  · exact .inr rfl
  · exact .inl (isDigit_decimal hc)
  · exact .inr rfl
  · exact .inl (isDigit_decimal hc)

theorem quadText_length (a : Addr4) : 7 ≤ (quadText a).length ∧ (quadText a).length ≤ 15 := by
  have hlen : ∀ n < 256, 1 ≤ (decimal n).length ∧ (decimal n).length ≤ 3 := by decide +kernel
  have h1 := hlen _ a.1.toNat_lt
  have h2 := hlen _ a.2.1.toNat_lt
  have h3 := hlen _ a.2.2.1.toNat_lt
  have h4 := hlen _ a.2.2.2.toNat_lt
  unfold quadText
  simp only [List.length_append, List.length_cons]
  omega

/-- The number of a port is read, if it is not too large. -/
theorem atoi_digits (ds : { ds : Bytes // ds ≠ [] ∧ ∀ c ∈ ds, isDigit c = true }) :
    atoi ds.1 = digitsVal ds.1 ↔ digitsVal ds.1 < 0x80000000 := by
  obtain ⟨hdigits, -, hsign, -⟩ := digitsAt_digits ds.2.1 ds.2.2
  unfold atoi strtol
  dsimp only
  rw [hdigits, hsign, if_neg Bool.false_ne_true]
  have hrange := toInt_range (min (digitsVal ds.1 : ℤ) 0x7FFFFFFFFFFFFFFF)
  constructor
  · intro h
    omega
  · intro h
    rw [toInt_of_int (by omega) (by omega)]
    omega

/-! ## Hosts -/

theorem urlTcp_plain {s : Bytes} (h : chr ':' ∉ s) (scheme : Bytes) :
    urlTcp lib s scheme = bind4 .http scheme anyAddr 80 := by
  unfold urlTcp
  rw [idxOf_none h]

/-- A text is cut at its first colon. -/
theorem urlTcp_colon {front rest : Bytes} (hfront : chr ':' ∉ front) (hrest : rest ≠ []) (scheme : Bytes) :
    urlTcp lib (front ++ chr ':' :: rest) scheme =
      if 15 < front.length then tooLong scheme (front ++ chr ':' :: rest)
      else if front = [] then bind4 .http scheme anyAddr (atoi rest)
      else
        (lib.aton (if strncmp (bytes "localhost") (front ++ chr ':' :: rest) 9 then bytes "127.0.0.1"
          else front)).elim
          (notValid scheme (front ++ chr ':' :: rest)) fun a => bind4 .http scheme a (atoi rest) := by
  have hlast : front.length + 1 ≠ (front ++ chr ':' :: rest).length := by
    have hpos := List.length_pos_iff.mpr hrest
    rw [List.length_append, List.length_cons]
    omega
  have hdrop : (front ++ chr ':' :: rest).drop (front.length + 1) = rest := by
    rw [List.drop_length_add_append]
    rfl
  have htake : (front ++ chr ':' :: rest).take front.length = front := List.take_left
  unfold urlTcp
  rw [idxOf_append hfront]
  dsimp only
  rw [if_neg hlast, hdrop, htake]
  by_cases hempty : front = []
  · rw [if_pos hempty, hempty]
    rfl
  · rw [if_neg hempty, if_neg (fun h => hempty (List.length_eq_zero_iff.mp h))]
    generalize (if strncmp (bytes "localhost") (front ++ chr ':' :: rest) 9 then bytes "127.0.0.1"
      else front) = host
    cases lib.aton host <;> rfl

/-- Where a bind for an IPv4 address is the one of a URL. -/
theorem bind4_honours (u : Url lib) (kind : Kind) (scheme : Bytes) (a : Addr4) (port : ℤ) :
    (bind4 kind scheme a port).Honours u ↔ u.host.addr = .v4 a ∧ port = u.portNum := by
  unfold bind4 Result.Honours
  exact and_congr_left fun _ => eq_comm

theorem colon_notMem_quadText (a : Addr4) : chr ':' ∉ quadText a := fun h =>
  (quadText_bytes a _ h).elim (fun hdigit => absurd hdigit (by decide)) fun hdot => absurd hdot (by decide)

/-- Four numbers with dots begin with a digit. -/
theorem quadText_head (a : Addr4) (rest : Bytes) : ∃ c s, quadText a ++ rest = c :: s ∧ isDigit c = true := by
  obtain ⟨c, s, hdecimal⟩ := List.exists_cons_of_ne_nil (decimal_ne_nil a.1.toNat)
  obtain ⟨t, hquad⟩ : ∃ t, quadText a = decimal a.1.toNat ++ t := ⟨_, rfl⟩
  refine ⟨c, s ++ t ++ rest, by rw [hquad, hdecimal]; rfl, isDigit_decimal (n := a.1.toNat) ?_⟩
  rw [hdecimal]
  exact List.mem_cons_self

theorem cstr_cons {c : Byte} (h : c ≠ 0) (s : Bytes) : cstr (c :: s) = c :: cstr s :=
  cstr_append (a := [c]) (fun hmem => h (List.mem_singleton.mp hmem).symm) s

theorem strncmp_head {c d : Byte} (hc : c ≠ 0) (hne : c ≠ d) (s t : Bytes) (n : ℕ) :
    strncmp (c :: s) (d :: t) (n + 1) = false := by
  unfold strncmp
  rw [cstr_cons hc, List.take_succ_cons]
  by_cases hd : d = 0
  · rw [hd]
    rfl
  · rw [cstr_cons hd, List.take_succ_cons, beq_eq_false_iff_ne]
    exact fun h => hne (List.cons.inj h).1

theorem portText_none {u : Url lib} (h : u.port = none) : u.portText = [] := by
  unfold Url.portText
  rw [h]
  rfl

theorem portText_some {u : Url lib} {ds} (h : u.port = some ds) : u.portText = chr ':' :: ds.1 := by
  unfold Url.portText
  rw [h]
  rfl

theorem portNum_none {u : Url lib} (h : u.port = none) : u.portNum = u.scheme.port := by
  unfold Url.portNum
  rw [h]
  rfl

theorem portNum_some {u : Url lib} {ds} (h : u.port = some ds) : u.portNum = digitsVal ds.1 := by
  unfold Url.portNum
  rw [h]
  rfl

theorem portFits_none {u : Url lib} (h : u.port = none) : u.PortFits := by
  intro ds hds
  rw [h] at hds
  cases hds

theorem portFits_some {u : Url lib} {ds} (h : u.port = some ds) : u.PortFits ↔ digitsVal ds.1 < 0x80000000 := by
  unfold Url.PortFits
  rw [h]
  exact ⟨fun hfits => hfits ds rfl, fun hlt ds' hds => Option.some.inj hds ▸ hlt⟩

/-- A host without a bracket has no colon. -/
theorem colon_notMem_host {h : Host lib} (h4 : h.isV6 = false) : chr ':' ∉ h.text := by
  cases h with
  | v4 a => exact colon_notMem_quadText a
  | localhost => exact (by decide : chr ':' ∉ bytes "localhost")
  | empty => exact List.not_mem_nil
  | v6 _ _ _ => cases h4

theorem host_length {h : Host lib} (h4 : h.isV6 = false) : h.text.length ≤ 15 := by
  cases h with
  | v4 a => exact (quadText_length a).2
  | localhost => exact (by decide : (bytes "localhost").length ≤ 15)
  | empty => exact Nat.zero_le _
  | v6 _ _ _ => cases h4

/-- With a port, `url_tcp` binds any host. -/
theorem urlTcp_port {h : Host lib} (h4 : h.isV6 = false) {ds : Bytes} (hds : ds ≠ []) (scheme : Bytes) :
    ∃ a, h.addr = .v4 a ∧ urlTcp lib (h.text ++ chr ':' :: ds) scheme = bind4 .http scheme a (atoi ds) := by
  have hlen : ¬ 15 < h.text.length := by
    have hle := host_length h4
    omega
  rw [urlTcp_colon (colon_notMem_host h4) hds, if_neg hlen]
  cases h with
  | v4 a =>
    refine ⟨a, rfl, ?_⟩
    obtain ⟨c, s, hhead, hdigit⟩ := quadText_head a (chr ':' :: ds)
    have hempty : quadText a ≠ [] := List.ne_nil_of_length_pos (by have hlen := quadText_length a; omega)
    have hlocal : strncmp (bytes "localhost") (quadText a ++ chr ':' :: ds) 9 = false := by
      rw [hhead]
      exact strncmp_head (by decide) (fun hl => absurd (hl ▸ hdigit) (by decide)) _ _ _
    show (if quadText a = [] then _ else (lib.aton (if strncmp _ (quadText a ++ _) 9 then _ else quadText a)).elim
      _ _) = _
    rw [if_neg hempty, hlocal, if_neg Bool.false_ne_true, lib.quad]
    rfl
  | localhost =>
    refine ⟨(127, 0, 0, 1), rfl, ?_⟩
    have hlocal : strncmp (bytes "localhost") (bytes "localhost" ++ chr ':' :: ds) 9 = true := by
      unfold strncmp
      rw [cstr_append (by decide)]
      rfl
    have haton : lib.aton (bytes "127.0.0.1") = some (127, 0, 0, 1) := lib.quad (127, 0, 0, 1)
    show (if bytes "localhost" = [] then _
      else (lib.aton (if strncmp _ (bytes "localhost" ++ _) 9 then _ else _)).elim _ _) = _
    rw [if_neg (by decide), hlocal, if_pos rfl, haton]
    rfl
  | empty => exact ⟨anyAddr, rfl, rfl⟩
  | v6 _ _ _ => cases h4

theorem addr_v4 {h : Host lib} (h4 : h.isV6 = false) : ∃ a, h.addr = .v4 a :=
  (urlTcp_port h4 (List.cons_ne_nil 0 []) []).imp fun _ => And.left

/-- A bind of `url_tcp` without a port is for any address. -/
theorem tcp_noPort {u : Url lib} (h4 : u.host.isV6 = false) (hport : u.port = none) (scheme : Bytes) :
    urlTcp lib (u.host.text ++ u.portText) scheme = bind4 .http scheme anyAddr 80 := by
  rw [portText_none hport, List.append_nil]
  exact urlTcp_plain (colon_notMem_host h4) scheme

/-- With a port, the address is the one of the host. -/
theorem tcp_port {u : Url lib} (h4 : u.host.isV6 = false) (hport : u.port ≠ none) (scheme : Bytes) :
    (urlTcp lib (u.host.text ++ u.portText) scheme).Honours u ↔ u.PortFits := by
  obtain ⟨ds, hds⟩ := Option.ne_none_iff_exists'.mp hport
  obtain ⟨a, haddr, htcp⟩ := urlTcp_port h4 ds.2.1 scheme
  rw [portText_some hds, htcp, bind4_honours, portFits_some hds, portNum_some hds, ← atoi_digits ds]
  exact and_iff_right haddr

/-- IPv6 addresses are read up to the bracket. -/
theorem urlTcp6_v6 {text addr : Bytes} (h : lib.pton6 text = some addr) (tail scheme : Bytes) :
    urlTcp6 lib (bytes "[" ++ text ++ bytes "]" ++ tail) scheme =
      .bind ⟨if at0 tail 0 = chr ':' then atoi (tail.drop 1) else 80, .v6 addr,
        (scheme ++ bytes "://[" ++ lib.ntop6 addr ++ bytes "]:" ++
          intText (if at0 tail 0 = chr ':' then atoi (tail.drop 1) else 80)).take 255, .http⟩ := by
  obtain ⟨hlen, -, -, hclose, -⟩ := lib.text6 text addr h
  have hform : bytes "[" ++ text ++ bytes "]" ++ tail = (chr '[' :: text) ++ chr ']' :: tail := by
    rw [show bytes "[" = [chr '['] from rfl, show bytes "]" = [chr ']'] from rfl, List.append_assoc,
      List.append_assoc, List.singleton_append, List.singleton_append, List.cons_append]
  have hnot : chr ']' ∉ chr '[' :: text := by
    rw [List.mem_cons, not_or]
    exact ⟨by decide, hclose⟩
  have hat : at0 ((chr '[' :: text) ++ chr ']' :: tail) ((chr '[' :: text).length + 1) = at0 tail 0 := by
    have hone : (chr '[' :: text).length + 1 = ((chr '[' :: text) ++ [chr ']']).length := by
      rw [List.length_append]
      rfl
    rw [List.append_cons (chr '[' :: text) (chr ']') tail, hone, at0_append]
  have hdrop : ((chr '[' :: text) ++ chr ']' :: tail).drop ((chr '[' :: text).length + 2) = tail.drop 1 := by
    rw [List.drop_length_add_append]
    rfl
  have htake : (((chr '[' :: text) ++ chr ']' :: tail).drop 1).take ((chr '[' :: text).length - 1) = text := by
    rw [List.cons_append, List.drop_one, List.tail_cons, List.length_cons, Nat.add_sub_cancel]
    exact List.take_left
  have hfit : ¬ 256 < (chr '[' :: text).length := by
    rw [List.length_cons]
    omega
  unfold urlTcp6
  rw [hform, idxOf_append hnot]
  dsimp only
  rw [hat, hdrop, htake, if_neg hfit, h]

/-- Without a closing bracket, what is read lies outside. -/
theorem urlTcp6_unclosed {s : Bytes} (h : chr ']' ∉ s) (scheme : Bytes) : urlTcp6 lib s scheme = .outside := by
  unfold urlTcp6
  rw [idxOf_none h]

theorem v6_of_isV6 {h : Host lib} (h6 : h.isV6 = true) :
    ∃ text addr, lib.pton6 text = some addr ∧ h.text = bytes "[" ++ text ++ bytes "]" ∧ h.addr = .v6 addr := by
  cases h with
  | v6 text addr h => exact ⟨text, addr, h, rfl, rfl⟩
  | v4 _ => cases h6
  | localhost => cases h6
  | empty => cases h6

theorem v6_honours {u : Url lib} (h6 : u.host.isV6 = true) (hscheme : u.scheme.port = 80) (scheme : Bytes) :
    (urlTcp6 lib (u.host.text ++ u.portText) scheme).Honours u ↔ u.PortFits := by
  obtain ⟨text, addr, h, htext, haddr⟩ := v6_of_isV6 h6
  rw [htext, urlTcp6_v6 h]
  unfold Result.Honours
  dsimp only
  rw [and_iff_right haddr.symm]
  cases hport : u.port with
  | none =>
    rw [portText_none hport, portNum_none hport, hscheme]
    exact iff_of_true rfl (portFits_none hport)
  | some ds =>
    rw [portText_some hport, portNum_some hport, portFits_some hport, ← atoi_digits ds]
    exact Iff.rfl

theorem bracket_notMem_port (u : Url lib) : chr '[' ∉ u.portText := by
  cases hport : u.port with
  | none =>
    rw [portText_none hport]
    exact List.not_mem_nil
  | some ds =>
    rw [portText_some hport, List.mem_cons, not_or]
    exact ⟨by decide, fun hmem => absurd (ds.2.2 _ hmem) (by decide)⟩

theorem bracket_notMem_host {h : Host lib} (h4 : h.isV6 = false) : chr '[' ∉ h.text := by
  cases h with
  | v4 a =>
    exact fun hmem => (quadText_bytes a _ hmem).elim (fun hdigit => absurd hdigit (by decide))
      fun hdot => absurd hdot (by decide)
  | localhost => exact (by decide : chr '[' ∉ bytes "localhost")
  | empty => exact List.not_mem_nil
  | v6 _ _ _ => cases h4

theorem at0_ne {c : Byte} (hc : c ≠ 0) {s : Bytes} (h : c ∉ s) : at0 s 0 ≠ c := by
  cases s with
  | nil => exact hc.symm
  | cons d s => exact fun hd => h (List.mem_cons.mpr (.inl hd.symm))

/-- What has no bracket is for `url_tcp`. -/
theorem urlHost_tcp {s : Bytes} (h : chr '[' ∉ s) (scheme : Bytes) : urlHost lib s scheme = urlTcp lib s scheme :=
  if_neg (at0_ne (by decide) h)

/-- `url_tcp` and `url_tcp6` for a URL. -/
theorem urlHost_iff {u : Url lib} (hscheme : u.scheme.port = 80) (scheme : Bytes) :
    (urlHost lib (u.host.text ++ u.portText) scheme).Honours u ↔ u.GoodTcp := by
  unfold Url.GoodTcp
  by_cases h4 : u.host.isV6 = false
  · rw [urlHost_tcp (fun hmem => (List.mem_append.mp hmem).elim (bracket_notMem_host h4) (bracket_notMem_port u))]
    by_cases hport : u.port = none
    · obtain ⟨a, ha⟩ := addr_v4 h4
      rw [tcp_noPort h4 hport, bind4_honours, portNum_none hport, hscheme]
      exact ⟨fun h => ⟨portFits_none hport, fun _ => .inr h.1⟩,
        fun h => ⟨(h.2 hport).resolve_left (by rw [h4]; exact Bool.false_ne_true), rfl⟩⟩
    · rw [tcp_port h4 hport]
      exact (and_iff_left fun hnone => absurd hnone hport).symm
  · rw [Bool.not_eq_false] at h4
    have hhead : at0 (u.host.text ++ u.portText) 0 = chr '[' := by
      obtain ⟨text, addr, -, htext, -⟩ := v6_of_isV6 h4
      rw [htext]
      rfl
    unfold urlHost
    rw [if_pos hhead, v6_honours h4 hscheme, and_iff_left fun _ => Or.inl h4]

/-! ## TLS -/

theorem urlSsl_plain {s : Bytes} (h : chr ':' ∉ s) :
    urlSsl lib true s = bind4 .https (bytes "https") anyAddr 443 := by
  unfold urlSsl
  rw [if_neg Bool.true_eq_false.mp, idxOf_none h]

/-- A text is cut at its first colon. -/
theorem urlSsl_colon {front : Bytes} (hfront : chr ':' ∉ front) (rest : Bytes) :
    urlSsl lib true (front ++ chr ':' :: rest) =
      if 15 < front.length then tooLong (bytes "https") (front ++ chr ':' :: rest)
      else if front = [] then bind4 .https (bytes "https") anyAddr (atoi rest)
      else (lib.aton front).elim (notValid (bytes "https") (front ++ chr ':' :: rest)) fun a =>
        bind4 .https (bytes "https") a (atoi rest) := by
  have hdrop : (front ++ chr ':' :: rest).drop (front.length + 1) = rest := by
    rw [List.drop_length_add_append]
    rfl
  have htake : (front ++ chr ':' :: rest).take front.length = front := List.take_left
  unfold urlSsl
  rw [if_neg (by decide), idxOf_append hfront]
  dsimp only
  rw [hdrop, htake]
  by_cases hempty : front = []
  · rw [if_pos hempty, hempty]
    rfl
  · rw [if_neg hempty, if_neg (fun h => hempty (List.length_eq_zero_iff.mp h))]
    cases lib.aton front <;> rfl

/-- The first colon of an IPv6 address is behind few bytes, the bracket among them. -/
theorem v6_colon {text addr : Bytes} (h : lib.pton6 text = some addr) (tail : Bytes) : ∃ front rest,
    bytes "[" ++ text ++ bytes "]" ++ tail = (chr '[' :: front) ++ chr ':' :: (rest ++ chr ']' :: tail) ∧
      chr ':' ∉ chr '[' :: front ∧ front.length ≤ 4 ∧ rest ≠ [] ∧ chr '[' ∉ rest := by
  obtain ⟨-, -, hopen, -, front, rest, htext, hcolon, hlen, hrest⟩ := lib.text6 text addr h
  refine ⟨front, rest, ?_, ?_, hlen, hrest, fun hmem => hopen ?_⟩
  · rw [htext]
    show (([chr '['] ++ (front ++ chr ':' :: rest)) ++ [chr ']']) ++ tail = _
    simp
  · rw [List.mem_cons, not_or]
    exact ⟨by decide, hcolon⟩
  · rw [htext]
    exact List.mem_append_right _ (List.mem_cons_of_mem _ hmem)

/-- An IPv6 address is refused. -/
theorem ssl_v6 {u : Url lib} (h6 : u.host.isV6 = true) :
    (urlSsl lib true (u.host.text ++ u.portText)).Honours u := by
  obtain ⟨text, addr, h, htext, -⟩ := v6_of_isV6 h6
  obtain ⟨front, rest, hform, hcolon, hlen, -⟩ := v6_colon h u.portText
  have hfit : ¬ 15 < (chr '[' :: front).length := by
    rw [List.length_cons]
    omega
  rw [htext, hform, urlSsl_colon hcolon, if_neg hfit, if_neg (List.cons_ne_nil _ _), lib.bracket]
  trivial

theorem ssl_noPort {u : Url lib} (h4 : u.host.isV6 = false) (hport : u.port = none)
    (hscheme : u.scheme.port = 443) :
    (urlSsl lib true (u.host.text ++ u.portText)).Honours u ↔ u.host.addr = .v4 anyAddr := by
  rw [portText_none hport, List.append_nil, urlSsl_plain (colon_notMem_host h4), bind4_honours,
    portNum_none hport, hscheme]
  exact and_iff_left rfl

theorem quadText_ne_localhost (a : Addr4) : quadText a ≠ bytes "localhost" := by
  obtain ⟨c, s, hhead, hdigit⟩ := quadText_head a []
  rw [List.append_nil] at hhead
  rw [hhead]
  intro heq
  rw [(List.cons.inj heq).1] at hdigit
  exact absurd hdigit (by decide)

theorem ssl_port {u : Url lib} (h4 : u.host.isV6 = false) (hport : u.port ≠ none) :
    (urlSsl lib true (u.host.text ++ u.portText)).Honours u ↔ u.host.text = bytes "localhost" ∨ u.PortFits := by
  obtain ⟨ds, hds⟩ := Option.ne_none_iff_exists'.mp hport
  have hlen : ¬ 15 < u.host.text.length := by
    have hle := host_length h4
    omega
  rw [portText_some hds, urlSsl_colon (colon_notMem_host h4), if_neg hlen, portFits_some hds, ← atoi_digits ds]
  cases hhost : u.host with
  | v4 a =>
    have hempty : quadText a ≠ [] := List.ne_nil_of_length_pos (by have hlen := quadText_length a; omega)
    show Result.Honours u (if quadText a = [] then _ else (lib.aton (quadText a)).elim _ _) ↔ _
    rw [if_neg hempty, lib.quad]
    show (bind4 _ _ _ _).Honours u ↔ _
    rw [bind4_honours, portNum_some hds, hhost]
    exact (and_iff_right rfl).trans (or_iff_right (quadText_ne_localhost a)).symm
  | localhost =>
    show Result.Honours u (if bytes "localhost" = [] then _ else (lib.aton (bytes "localhost")).elim _ _) ↔ _
    rw [if_neg (by decide), lib.localhost]
    exact iff_of_true trivial (.inl rfl)
  | empty =>
    show (bind4 _ _ _ _).Honours u ↔ _
    rw [bind4_honours, portNum_some hds, hhost]
    exact (and_iff_right rfl).trans (or_iff_right (by decide : ([] : Bytes) ≠ bytes "localhost")).symm
  | v6 _ _ _ =>
    rw [hhost] at h4
    cases h4

/-- `url_ssl` for a URL. -/
theorem urlSsl_iff {u : Url lib} (hscheme : u.scheme.port = 443) :
    (urlSsl lib true (u.host.text ++ u.portText)).Honours u ↔ u.GoodSsl := by
  unfold Url.GoodSsl
  by_cases h4 : u.host.isV6 = false
  · rw [or_iff_right (by rw [h4]; exact Bool.false_ne_true)]
    by_cases hport : u.port = none
    · rw [ssl_noPort h4 hport hscheme, or_iff_right fun h => h.2 hport, and_iff_right (portFits_none hport)]
      exact (imp_iff_right hport).symm
    · rw [ssl_port h4 hport, and_iff_left hport, and_iff_left fun hnone => absurd hnone hport]
  · rw [Bool.not_eq_false] at h4
    exact iff_of_true (ssl_v6 h4) (.inl h4)

/-! ## Schemes -/

/-- A scheme in letters of any case is compared as in small ones. -/
theorem strncasecmp_start {start name : Bytes} (h : start.map tolower = name) (hzero : 0 ∉ name)
    (key rest : Bytes) {n : ℕ} (hn : n ≤ start.length) :
    strncasecmp key (start ++ rest) n = (((cstr key).take n).map tolower == name.take n) := by
  have hstart : 0 ∉ start := fun hmem => hzero (h ▸ List.mem_map_of_mem (f := tolower) hmem)
  unfold strncasecmp
  rw [cstr_append hstart, List.take_append_of_le_length hn, List.map_take (l := start), h]

theorem strncasecmp_head {d : Byte} (hd : d ≠ 0) (key : Bytes) {s : Bytes}
    (h : ∀ c t, s = c :: t → c ≠ 0 ∧ tolower c ≠ tolower d) (n : ℕ) :
    strncasecmp (d :: key) s (n + 1) = false := by
  unfold strncasecmp
  rw [cstr_cons hd, List.take_succ_cons, List.map_cons, beq_eq_false_iff_ne]
  cases s with
  | nil => exact List.cons_ne_nil _ _
  | cons c t =>
    obtain ⟨hc, hne⟩ := h c t rfl
    rw [cstr_cons hc, List.take_succ_cons, List.map_cons]
    exact fun heq => hne (List.cons.inj heq).1.symm

variable (lib) (ctx : Bool)

theorem bindUrl_tcp {start : Bytes} (h : start.map tolower = bytes "tcp://") (rest : Bytes) :
    bindUrl lib ctx (start ++ rest) = urlHost lib rest (bytes "tcp") := by
  have hlen : start.length = 6 := (List.length_map tolower).symm.trans (congrArg List.length h)
  unfold bindUrl
  rw [strncasecmp_start h (by decide) _ _ hlen.ge, if_pos (by decide), List.drop_left' hlen]

theorem bindUrl_http {start : Bytes} (h : start.map tolower = bytes "http://") (rest : Bytes) :
    bindUrl lib ctx (start ++ rest) = urlHost lib rest (bytes "http") := by
  have hlen : start.length = 7 := (List.length_map tolower).symm.trans (congrArg List.length h)
  unfold bindUrl
  rw [strncasecmp_start h (by decide) _ _ (by omega), if_neg (by decide),
    strncasecmp_start h (by decide) _ _ hlen.ge, if_pos (by decide), List.drop_left' hlen]

theorem bindUrl_https {start : Bytes} (h : start.map tolower = bytes "https://") (rest : Bytes) :
    bindUrl lib ctx (start ++ rest) = urlSsl lib ctx rest := by
  have hlen : start.length = 8 := (List.length_map tolower).symm.trans (congrArg List.length h)
  unfold bindUrl
  rw [strncasecmp_start h (by decide) _ _ (by omega), if_neg (by decide),
    strncasecmp_start h (by decide) _ _ (by omega), if_neg (by decide),
    strncasecmp_start h (by decide) _ _ (by omega), if_neg (by decide),
    strncasecmp_start h (by decide) _ _ hlen.ge, if_pos (by decide), List.drop_left' hlen]

/-- A text that begins with none of some letters. -/
def NoHead (ds s : Bytes) : Prop := ∀ c t, s = c :: t → c ≠ 0 ∧ tolower c ∉ ds

theorem noHead_false {ds s : Bytes} (h : NoHead ds s) {d : Byte} (hd : tolower d ∈ ds) (hzero : d ≠ 0)
    (key : Bytes) (n : ℕ) : strncasecmp (d :: key) s (n + 1) = false :=
  strncasecmp_head hzero key (fun c t hs => ⟨(h c t hs).1, fun heq => (h c t hs).2 (heq ▸ hd)⟩) n

theorem bindUrl_other {s : Bytes} (h : NoHead (bytes "thu") s) : bindUrl lib ctx s =
    if strncasecmp (bytes "ssl://") s 6 then urlSsl lib ctx (s.drop 6) else urlOther lib s := by
  unfold bindUrl
  rw [show bytes "tcp://" = chr 't' :: bytes "cp://" from rfl, noHead_false h (by decide) (by decide),
    if_neg Bool.false_ne_true,
    show bytes "http://" = chr 'h' :: bytes "ttp://" from rfl, noHead_false h (by decide) (by decide),
    if_neg Bool.false_ne_true,
    show bytes "unix://" = chr 'u' :: bytes "nix://" from rfl, noHead_false h (by decide) (by decide),
    if_neg Bool.false_ne_true,
    show bytes "https://" = chr 'h' :: bytes "ttps://" from rfl, noHead_false h (by decide) (by decide),
    if_neg Bool.false_ne_true]

theorem bindUrl_ssl {start : Bytes} (h : start.map tolower = bytes "ssl://") (rest : Bytes) :
    bindUrl lib ctx (start ++ rest) = urlSsl lib ctx rest := by
  have hlen : start.length = 6 := (List.length_map tolower).symm.trans (congrArg List.length h)
  have hno : NoHead (bytes "thu") (start ++ rest) := by
    intro c t hs
    have hlower : tolower c = chr 's' := by
      cases start with
      | nil => cases hlen
      | cons d start => exact (List.cons.inj hs).1 ▸ (List.cons.inj h).1
    exact ⟨fun hc => absurd (hc ▸ hlower) (by decide), by rw [hlower]; decide⟩
  rw [bindUrl_other lib ctx hno, strncasecmp_start h (by decide) _ _ hlen.ge, if_pos (by decide),
    List.drop_left' hlen]

theorem bindUrl_none {s : Bytes} (h : NoHead (bytes "thus") s) : bindUrl lib ctx s = urlOther lib s := by
  have hthu : NoHead (bytes "thu") s := fun c t hs =>
    ⟨(h c t hs).1, fun hmem => (h c t hs).2 (List.mem_append_left (bytes "s") hmem)⟩
  rw [bindUrl_other lib ctx hthu, show bytes "ssl://" = chr 's' :: bytes "sl://" from rfl,
    noHead_false h (by decide) (by decide), if_neg Bool.false_ne_true]

variable {lib}

theorem urlOther_plain {s : Bytes} (h : chr ':' ∉ s) :
    urlOther lib s = bind4 .http (bytes "http") anyAddr 80 := by
  unfold urlOther
  rw [idxOf_none h]
  exact urlTcp_plain h _

/-- What is before the first colon is taken for a scheme. -/
theorem urlOther_colon {front : Bytes} (h : chr ':' ∉ front) (rest : Bytes) :
    urlOther lib (front ++ chr ':' :: rest) =
      if front.length < 8 then if rest.length < 2 then .outside else urlHost lib (rest.drop 2) front
      else urlTcp lib (front ++ chr ':' :: rest) (bytes "http") := by
  have hshort : (front ++ chr ':' :: rest).length < front.length + 3 ↔ rest.length < 2 := by
    rw [List.length_append, List.length_cons]
    omega
  have hdrop : (front ++ chr ':' :: rest).drop (front.length + 3) = rest.drop 2 := by
    rw [List.drop_length_add_append]
    rfl
  have htake : (front ++ chr ':' :: rest).take front.length = front := List.take_left
  unfold urlOther
  rw [idxOf_append h]
  dsimp only
  simp only [hshort, hdrop, htake]

/-- A URL without a scheme begins with none of the schemes. -/
theorem noHead_host (u : Url lib) : NoHead (bytes "thus") (u.host.text ++ u.portText) := by
  have hdigit : ∀ c : Byte, isDigit c = true → c ≠ 0 ∧ tolower c ∉ bytes "thus" := by
    intro c hc
    have hle : c ≤ chr '9' := (by simpa [isDigit] using hc : chr '0' ≤ c ∧ c ≤ chr '9').2
    have hlower : tolower c = c := if_neg fun h => absurd (UInt8.le_trans h.1 hle) (by decide)
    have hletters : ∀ d ∈ bytes "thus", isDigit d = false := by decide
    rw [hlower]
    exact ⟨(isDigit_plain hc).2.1, fun hmem => absurd (hletters c hmem) (by rw [hc]; decide)⟩
  intro c t hs
  cases hhost : u.host with
  | v4 a =>
    obtain ⟨d, s, hhead, hd⟩ := quadText_head a u.portText
    rw [hhost, show (Host.v4 a).text = quadText a from rfl, hhead] at hs
    exact (List.cons.inj hs).1 ▸ hdigit d hd
  | localhost =>
    rw [hhost] at hs
    exact (List.cons.inj hs).1 ▸ (by decide)
  | empty =>
    rw [hhost] at hs
    cases hport : u.port with
    | none =>
      rw [portText_none hport] at hs
      cases hs
    | some ds =>
      rw [portText_some hport] at hs
      exact (List.cons.inj hs).1 ▸ (by decide)
  | v6 text addr h =>
    rw [hhost] at hs
    exact (List.cons.inj hs).1 ▸ (by decide)

/-- There is one first colon. -/
theorem colon_unique {c : Byte} {front front' rest rest' : Bytes} (h : c ∉ front) (h' : c ∉ front')
    (heq : front ++ c :: rest = front' ++ c :: rest') : front = front' ∧ rest = rest' := by
  have hlen : front.length = front'.length :=
    Option.some.inj ((idxOf_append h rest).symm.trans ((congrArg _ heq).trans (idxOf_append h' rest')))
  obtain ⟨hfront, hrest⟩ := List.append_inj heq hlen
  exact ⟨hfront, (List.cons.inj hrest).2⟩

theorem urlTcp_last {front : Bytes} (h : chr ':' ∉ front) (scheme : Bytes) :
    urlTcp lib (front ++ [chr ':']) scheme = bind4 .http scheme anyAddr 80 := by
  unfold urlTcp
  rw [idxOf_append h []]
  dsimp only
  rw [if_pos]
  rw [List.length_append]
  rfl

/-- Where an IPv6 address is asked for, `url_tcp` must refuse. -/
theorem tcp_refused {u : Url lib} (h6 : u.host.isV6 = true) (s scheme : Bytes) :
    (urlTcp lib s scheme).Honours u ↔ Refused lib s := by
  obtain ⟨-, addr, -, -, haddr⟩ := v6_of_isV6 h6
  have hbind : ∀ a port, ¬ (bind4 .http scheme a port).Honours u := by
    intro a port h
    rw [bind4_honours, haddr] at h
    cases h.1
  by_cases hmem : chr ':' ∈ s
  · obtain ⟨front, rest, rfl, hfront⟩ := List.eq_append_cons_of_mem hmem
    have hrefused : Refused lib (front ++ chr ':' :: rest) ↔ rest ≠ [] ∧ (15 < front.length ∨ front ≠ [] ∧
        strncmp (bytes "localhost") (front ++ chr ':' :: rest) 9 = false ∧ lib.aton front = none) := by
      constructor
      · rintro ⟨front', rest', heq, hfront', h⟩
        obtain ⟨rfl, rfl⟩ := colon_unique hfront hfront' heq
        exact h
      · exact fun h => ⟨front, rest, rfl, hfront, h⟩
    rw [hrefused]
    by_cases hrest : rest = []
    · subst hrest
      rw [urlTcp_last hfront]
      exact iff_of_false (hbind _ _) fun h => h.1 rfl
    · rw [urlTcp_colon hfront hrest, and_iff_right hrest]
      by_cases hlen : 15 < front.length
      · rw [if_pos hlen]
        exact iff_of_true trivial (.inl hlen)
      rw [if_neg hlen, or_iff_right hlen]
      by_cases hempty : front = []
      · rw [if_pos hempty]
        exact iff_of_false (hbind _ _) fun h => h.1 hempty
      rw [if_neg hempty, and_iff_right hempty]
      cases strncmp (bytes "localhost") (front ++ chr ':' :: rest) 9 with
      | true =>
        have haton : lib.aton (bytes "127.0.0.1") = some (127, 0, 0, 1) := lib.quad (127, 0, 0, 1)
        rw [if_pos rfl, haton]
        exact iff_of_false (hbind _ _) fun h => absurd h.1 (by decide)
      | false =>
        rw [if_neg Bool.false_ne_true, and_iff_right rfl]
        cases lib.aton front with
        | none => exact iff_of_true trivial rfl
        | some a => exact iff_of_false (hbind _ _) (Option.some_ne_none a)
  · rw [urlTcp_plain hmem]
    refine iff_of_false (hbind _ _) ?_
    rintro ⟨front, rest, rfl, -⟩
    exact hmem (List.mem_append_right _ List.mem_cons_self)

/-- Without a scheme, an IPv6 address must be refused. -/
theorem other_v6 {u : Url lib} (h6 : u.host.isV6 = true) :
    (urlOther lib (u.host.text ++ u.portText)).Honours u ↔ ∃ front rest,
      u.host.text ++ u.portText = front ++ chr ':' :: rest ∧ chr ':' ∉ front ∧ Refused lib (rest.drop 2) := by
  obtain ⟨text, addr, h, htext, -⟩ := v6_of_isV6 h6
  obtain ⟨front, rest, hform, hcolon, hlen, hrest, hopen⟩ := v6_colon h u.portText
  have hshort : (chr '[' :: front).length < 8 := by
    rw [List.length_cons]
    omega
  have hlong : ¬ (rest ++ chr ']' :: u.portText).length < 2 := by
    have hpos := List.length_pos_iff.mpr hrest
    rw [List.length_append, List.length_cons]
    omega
  have hbracket : chr '[' ∉ (rest ++ chr ']' :: u.portText).drop 2 := by
    intro hmem
    rcases List.mem_append.mp (List.mem_of_mem_drop hmem) with hmem | hmem
    · exact hopen hmem
    · exact (List.mem_cons.mp hmem).elim (by decide) (bracket_notMem_port u)
  rw [htext, hform, urlOther_colon hcolon, if_pos hshort, if_neg hlong, urlHost_tcp hbracket, tcp_refused h6]
  constructor
  · exact fun hrefused => ⟨_, _, rfl, hcolon, hrefused⟩
  · rintro ⟨front', rest', heq, hfront', hrefused⟩
    rw [(colon_unique hcolon hfront' heq).2]
    exact hrefused

/-- Without a scheme, a short host is skipped with the first two bytes of its port. -/
theorem other_short {u : Url lib} (h4 : u.host.isV6 = false) (hport : u.port ≠ none)
    (hlen : u.host.text.length < 8) :
    (urlOther lib (u.host.text ++ u.portText)).Honours u ↔
      u.host.addr = .v4 anyAddr ∧ u.portNum = 80 ∧ 3 ≤ u.portText.length := by
  obtain ⟨ds, hds⟩ := Option.ne_none_iff_exists'.mp hport
  have hdigits : ∀ c ∈ ds.1.drop 2, isDigit c = true := fun c hmem => ds.2.2 c (List.mem_of_mem_drop hmem)
  have hbracket : chr '[' ∉ ds.1.drop 2 := fun hmem => absurd (hdigits _ hmem) (by decide)
  have hcolon : chr ':' ∉ ds.1.drop 2 := fun hmem => absurd (hdigits _ hmem) (by decide)
  rw [portText_some hds, urlOther_colon (colon_notMem_host h4), if_pos hlen, List.length_cons]
  by_cases hshort : ds.1.length < 2
  · rw [if_pos hshort]
    refine iff_of_false not_false ?_
    omega
  · rw [if_neg hshort, urlHost_tcp hbracket, urlTcp_plain hcolon, bind4_honours]
    exact ⟨fun h => ⟨h.1, by omega, by omega⟩, fun h => ⟨h.1, by omega⟩⟩

/-- Without a scheme. -/
theorem urlOther_iff {u : Url lib} (hscheme : u.scheme = .none) :
    (urlOther lib u.text).Honours u ↔ u.GoodPlain := by
  have hstart : u.start = [] := List.map_eq_nil_iff.mp (u.same.trans (by rw [hscheme]; rfl))
  have htext : u.text = u.host.text ++ u.portText := by
    unfold Url.text
    rw [hstart, List.nil_append]
  unfold Url.GoodPlain
  rw [htext]
  by_cases h4 : u.host.isV6 = false
  · rw [if_neg (by rw [h4]; exact Bool.false_ne_true)]
    by_cases hport : u.port = none
    · rw [if_pos hport, portText_none hport, List.append_nil, urlOther_plain (colon_notMem_host h4),
        bind4_honours, portNum_none hport, hscheme]
      exact and_iff_left rfl
    rw [if_neg hport]
    by_cases hlen : u.host.text.length < 8
    · rw [if_pos hlen, other_short h4 hport hlen]
    · obtain ⟨ds, hds⟩ := Option.ne_none_iff_exists'.mp hport
      rw [if_neg hlen, ← tcp_port h4 hport (bytes "http"), portText_some hds,
        urlOther_colon (colon_notMem_host h4), if_neg hlen]
  · rw [Bool.not_eq_false] at h4
    rw [if_pos h4, other_v6 h4]

/-- Which URLs are bound to what they ask for, or refused. -/
theorem bindUrl_iff (u : Url lib) : (bindUrl lib ctx u.text).Honours u ↔ u.Good ctx := by
  have hsame := u.same
  have hssl : u.scheme.port = 443 → ((urlSsl lib ctx (u.host.text ++ u.portText)).Honours u ↔
      (ctx = true → u.GoodSsl)) := by
    intro hscheme
    cases ctx with
    | true => rw [urlSsl_iff hscheme, imp_iff_right rfl]
    | false => exact iff_of_true trivial fun h => absurd h Bool.false_ne_true
  unfold Url.Good
  cases hscheme : u.scheme with
  | tcp =>
    rw [hscheme] at hsame
    exact (bindUrl_tcp lib ctx hsame _) ▸ urlHost_iff (by rw [hscheme]; rfl) _
  | http =>
    rw [hscheme] at hsame
    exact (bindUrl_http lib ctx hsame _) ▸ urlHost_iff (by rw [hscheme]; rfl) _
  | https =>
    rw [hscheme] at hsame
    exact (bindUrl_https lib ctx hsame _) ▸ hssl (by rw [hscheme]; rfl)
  | ssl =>
    rw [hscheme] at hsame
    exact (bindUrl_ssl lib ctx hsame _) ▸ hssl (by rw [hscheme]; rfl)
  | none =>
    have hstart : u.text = u.host.text ++ u.portText := by
      rw [hscheme] at hsame
      unfold Url.text
      rw [List.map_eq_nil_iff.mp hsame, List.nil_append]
    have hhead := noHead_host u
    rw [← hstart] at hhead
    rw [bindUrl_none lib ctx hhead]
    exact urlOther_iff hscheme

/-! ## Without a port -/

/-- A number of an address. -/
def isPart (ds : Bytes) : Bool := ds != [] && ds.all isDigit && digitsVal ds < 256

/-- `inet_aton` for four numbers with dots. -/
def atonQuad (s : Bytes) : Option Addr4 :=
  match s.splitOn (chr '.') with
  | [a, b, c, d] =>
    if isPart a && isPart b && isPart c && isPart d then
      some (.ofNat (digitsVal a), .ofNat (digitsVal b), .ofNat (digitsVal c), .ofNat (digitsVal d))
    else none
  | _ => none

theorem isPart_decimal (b : UInt8) :
    isPart (decimal b.toNat) = true ∧ UInt8.ofNat (digitsVal (decimal b.toNat)) = b := by
  have hval : digitsVal (decimal b.toNat) = b.toNat := foldl_decimal b.toNat
  unfold isPart
  rw [hval]
  refine ⟨?_, UInt8.ofNat_toNat⟩
  simp only [Bool.and_eq_true, bne_iff_ne, List.all_eq_true, decide_eq_true_eq]
  exact ⟨⟨decimal_ne_nil _, fun c hc => isDigit_decimal hc⟩, b.toNat_lt⟩

theorem atonQuad_quadText (a : Addr4) : atonQuad (quadText a) = some a := by
  have hdot : ∀ n, chr '.' ∉ decimal n := fun n hmem => absurd (isDigit_decimal hmem) (by decide)
  have hsplit : (quadText a).splitOn (chr '.') =
      [decimal a.1.toNat, decimal a.2.1.toNat, decimal a.2.2.1.toNat, decimal a.2.2.2.toNat] := by
    unfold quadText
    rw [List.splitOn_append_cons_self, List.splitOn_append_cons_self, List.splitOn_append_cons_self]
    simp only [List.splitOn_eq_singleton (hdot _), List.singleton_append]
  unfold atonQuad
  rw [hsplit]
  simp only [isPart_decimal, Bool.and_self, if_true]

theorem atonQuad_bracket (s : Bytes) : atonQuad (chr '[' :: s) = none := by
  have hpart : ∀ ds, isPart (chr '[' :: ds) = false := fun _ => rfl
  unfold atonQuad List.splitOn
  rw [List.splitOnP_cons_eq_if_modifyHead, if_neg (by decide)]
  rcases List.splitOnP (· == chr '.') s with _ | ⟨a, _ | ⟨b, _ | ⟨c, _ | ⟨d, _ | _⟩⟩⟩⟩
  all_goals
    simp [hpart]

/-- IPv4 addresses with dots and the IPv6 loopback address. -/
def loopbackLibc : Libc where
  aton := atonQuad
  pton6 s := if s = bytes "::1" then some (List.replicate 15 0 ++ [1]) else none
  ntop6 _ := bytes "::1"
  quad := atonQuad_quadText
  localhost := by
    unfold atonQuad
    rw [List.splitOn_eq_singleton (by decide)]
  bracket := atonQuad_bracket
  text6 s a h := by
    have hs : s = bytes "::1" := by
      by_contra hne
      rw [if_neg hne] at h
      cases h
    rw [hs]
    exact ⟨by decide, by decide, by decide, by decide, [], bytes ":1", rfl, by decide, by decide, by decide⟩

/-- `http://127.0.0.1`. -/
def loopbackUrl : Url loopbackLibc where
  start := bytes "http://"
  scheme := .http
  same := by decide
  host := .v4 (127, 0, 0, 1)
  port := none

theorem no_port_binds_any : loopbackUrl.text = bytes "http://127.0.0.1" ∧
    bindUrl loopbackLibc false loopbackUrl.text = bind4 .http (bytes "http") anyAddr 80 ∧
    ¬ (bindUrl loopbackLibc false loopbackUrl.text).Honours loopbackUrl := by
  have htext : loopbackUrl.text = bytes "http://" ++ bytes "127.0.0.1" := rfl
  have hbind : bindUrl loopbackLibc false loopbackUrl.text = bind4 .http (bytes "http") anyAddr 80 := by
    rw [htext, bindUrl_http loopbackLibc false (by decide), urlHost_tcp (by decide), urlTcp_plain (by decide)]
  refine ⟨rfl, hbind, ?_⟩
  rw [hbind, bind4_honours]
  exact fun h => absurd h.1 (by decide)

end BindUrl

end Agoo
