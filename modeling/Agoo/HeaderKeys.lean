import Agoo.GqlText
import Agoo.PageCache
import Agoo.Radix

/-!
# Header keys (`http.c`)

`agoo_http_header_ok` looks a key up by its hash; keys of at most nine bytes are not compared. The hash reads
a key in base 77 with digits from 0 to 82, so that some bytes carry: `lookalikes` are the keys that pass
without being in the table (`header_ok_iff`).
-/

namespace Agoo

namespace Http

/-! ## The code -/

/-- `header_value_chars`. -/
def headerValueChars : Bytes :=
  bytes "xxxxxxxxxxoxxxxxxxxxxxxxxxxxxxxx" ++ bytes "oooooooooooooooooooooooooooooooo" ++
    bytes "oooooooooooooooooooooooooooooooo" ++ bytes "ooooooooooooooooooooooooooooooox" ++
    List.replicate 128 (chr 'x')

/-- The bytes of a literal, as the kernel reads them fastest. -/
def octets (s : String) : Bytes := s.toByteArray.data.toList

/-- `header_keys`. -/
def headerKeys : List Bytes :=
  ["A-IM", "ALPN", "ARC-Authentication-Results", "ARC-Message-Signature", "ARC-Seal", "Accept",
    "Accept-Additions", "Accept-Charset", "Accept-Datetime", "Accept-Encoding", "Accept-Features",
    "Accept-Language", "Accept-Patch", "Accept-Post", "Accept-Ranges", "Access-Control",
    "Access-Control-Allow-Credentials", "Access-Control-Allow-Headers", "Access-Control-Allow-Methods",
    "Access-Control-Allow-Origin", "Access-Control-Max-Age", "Access-Control-Request-Headers",
    "Access-Control-Request-Method", "Age", "Allow", "Also-Control", "Alt-Svc", "Alt-Used",
    "Alternate-Recipient", "Alternates", "Apparently-To", "Apply-To-Redirect-Ref", "Approved", "Archive",
    "Archived-At", "Article-Names", "Article-Updates", "Authentication-Control", "Authentication-Info",
    "Authentication-Results", "Authorization", "Auto-Submitted", "Autoforwarded", "Autosubmitted", "Base",
    "Bcc", "Body", "C-Ext", "C-Man", "C-Opt", "C-PEP", "C-PEP-Info", "Cache-Control", "CalDAV-Timezones",
    "Cancel-Key", "Cancel-Lock", "Cc", "Close", "Comments", "Compliance", "Connection",
    "Content-Alternative", "Content-Base", "Content-Description", "Content-Disposition",
    "Content-Duration", "Content-Encoding", "Content-ID", "Content-Identifier", "Content-Language",
    "Content-Length", "Content-Location", "Content-MD5", "Content-Range", "Content-Return",
    "Content-Script-Type", "Content-Style-Type", "Content-Transfer-Encoding", "Content-Translation-Type",
    "Content-Type", "Content-Version", "Content-features", "Control", "Conversion", "Conversion-With-Loss",
    "Cookie", "Cookie2", "Cost", "DASL", "DAV", "DKIM-Signature", "DL-Expansion-History", "DNT", "Date",
    "Date-Received", "Default-Style", "Deferred-Delivery", "Delivery-Date", "Delta-Base", "Depth",
    "Derived-From", "Destination", "Differential-ID", "Digest", "Discarded-X400-IPMS-Extensions",
    "Discarded-X400-MTS-Extensions", "Disclose-Recipients", "Disposition-Notification-Options",
    "Disposition-Notification-To", "Distribution", "Downgraded-Bcc", "Downgraded-Cc",
    "Downgraded-Disposition-Notification-To", "Downgraded-Final-Recipient", "Downgraded-From",
    "Downgraded-In-Reply-To", "Downgraded-Mail-From", "Downgraded-Message-Id",
    "Downgraded-Original-Recipient", "Downgraded-Rcpt-To", "Downgraded-References", "Downgraded-Reply-To",
    "Downgraded-Resent-Bcc", "Downgraded-Resent-Cc", "Downgraded-Resent-From",
    "Downgraded-Resent-Reply-To", "Downgraded-Resent-Sender", "Downgraded-Resent-To",
    "Downgraded-Return-Path", "Downgraded-Sender", "Downgraded-To", "EDIINT-Features", "ETag",
    "Eesst-Version", "Encoding", "Encrypted", "Errors-To", "Expect", "Expires", "Expiry-Date", "Ext",
    "Followup-To", "Form-Sub", "Forwarded", "From", "Front-End-Https", "Generate-Delivery-Report",
    "GetProfile", "HTTP2-Settings", "Hobareg", "Host", "IM", "If", "If-Match", "If-Modified-Since",
    "If-None-Match", "If-Range", "If-Schedule-Tag-Match", "If-Unmodified-Since", "Importance",
    "In-Reply-To", "Incomplete-Copy", "Injection-Date", "Injection-Info", "Jabber-ID", "Keep-Alive",
    "Keywords", "Label", "Language", "Last-Modified", "Latest-Delivery-Time", "Lines", "Link",
    "List-Archive", "List-Help", "List-ID", "List-Owner", "List-Post", "List-Subscribe",
    "List-Unsubscribe", "List-Unsubscribe-Post", "Location", "Lock-Token", "MIME-Version",
    "MMHS-Acp127-Message-Identifier", "MMHS-Authorizing-Users", "MMHS-Codress-Message-Indicator",
    "MMHS-Copy-Precedence", "MMHS-Exempted-Address", "MMHS-Extended-Authorisation-Info",
    "MMHS-Handling-Instructions", "MMHS-Message-Instructions", "MMHS-Message-Type", "MMHS-Originator-PLAD",
    "MMHS-Originator-Reference", "MMHS-Other-Recipients-Indicator-CC",
    "MMHS-Other-Recipients-Indicator-To", "MMHS-Primary-Precedence", "MMHS-Subject-Indicator-Codes",
    "MT-Priority", "Man", "Max-Forwards", "Memento-Datetime", "Message-Context", "Message-ID",
    "Message-Type", "Meter", "Method-Check", "Method-Check-Expires", "NNTP-Posting-Date",
    "NNTP-Posting-Host", "Negotiate", "Newsgroups", "Non-Compliance", "Obsoletes", "Opt", "Optional",
    "Optional-WWW-Authenticate", "Ordering-Type", "Organization", "Origin",
    "Original-Encoded-Information-Types", "Original-From", "Original-Message-ID", "Original-Recipient",
    "Original-Sender", "Original-Subject", "Originator-Return-Address", "Overwrite", "P3P", "PEP",
    "PICS-Label", "Path", "Pep-Info", "Position", "Posting-Version", "Pragma", "Prefer",
    "Preference-Applied", "Prevent-NonDelivery-Report", "Priority", "Privicon", "ProfileObject",
    "Protocol", "Protocol-Info", "Protocol-Query", "Protocol-Request", "Proxy-Authenticate",
    "Proxy-Authentication-Info", "Proxy-Authorization", "Proxy-Connection", "Proxy-Features",
    "Proxy-Instruction", "Public", "Public-Key-Pins", "Public-Key-Pins-Report-Only", "Range", "Received",
    "Received-SPF", "Redirect-Ref", "References", "Referer", "Referer-Root", "Relay-Version", "Reply-By",
    "Reply-To", "Require-Recipient-Valid-Since", "Resent-Bcc", "Resent-Cc", "Resent-Date", "Resent-From",
    "Resent-Message-ID", "Resent-Reply-To", "Resent-Sender", "Resent-To", "Resolution-Hint",
    "Resolver-Location", "Retry-After", "Return-Path", "SIO-Label", "SIO-Label-History", "SLUG", "Safe",
    "Save-Data", "Schedule-Reply", "Schedule-Tag", "Sec-WebSocket-Accept", "Sec-WebSocket-Extensions",
    "Sec-WebSocket-Key", "Sec-WebSocket-Protocol", "Sec-WebSocket-Version", "Security-Scheme", "See-Also",
    "Sender", "Sender", "Sensitivity", "Server", "Set-Cookie", "Set-Cookie2", "SetProfile", "SoapAction",
    "Solicitation", "Status-URI", "Strict-Transport-Security", "SubOK", "Subject", "Subst", "Summary",
    "Supersedes", "Surrogate-Capability", "Surrogate-Control", "TCN", "TE", "TTL", "Timeout", "Title",
    "To", "Topic", "Trailer", "Transfer-Encoding", "UA-Color", "UA-Media", "UA-Pixels", "UA-Resolution",
    "UA-Windowpixels", "URI", "Upgrade", "Upgrade-Insecure-Requests", "Urgency", "User-Agent", "VBR-Info",
    "Variant-Vary", "Vary", "Version", "Via", "WWW-Authenticate", "Want-Digest", "Warning",
    "X-ATT-DeviceId", "X-Archived-At", "X-Content-Type-Options", "X-Correlation-ID", "X-Csrf-Token",
    "X-Device-Accept", "X-Device-Accept-Charset", "X-Device-Accept-Encoding", "X-Device-Accept-Language",
    "X-Device-User-Agent", "X-Forwarded-For", "X-Forwarded-Host", "X-Forwarded-Proto", "X-Frame-Options",
    "X-Http-Method-Override", "X-Mittente", "X-PGP-Sig", "X-Request-ID", "X-Requested-With", "X-Ricevuta",
    "X-Riferimento-Message-ID", "X-TipoRicevuta", "X-Trasporto", "X-UIDH", "X-VerificaSicurezza",
    "X-Wap-Profile", "X-XSS-Protection", "X400-Content-Identifier", "X400-Content-Return",
    "X400-Content-Type", "X400-MTS-Identifier", "X400-Originator", "X400-Received", "X400-Recipients",
    "X400-Trace", "Xref"].map octets

/-- `MAX_KEY_UNIQ`. -/
def maxKeyUniq : ℕ := 9

/-- A byte out of the range that the hash is made for. -/
def isSpecial (k : Byte) : Bool := k < 0x2D || 0x7A < k

/-- `calc_hash`: the hash, and the length that it leaves, negative for a key with special bytes. -/
def calcHash (key : Bytes) : UInt64 × ℤ :=
  (key.foldl (fun h k => 77 * h + ((k ||| 0x20).toUInt64 - 0x2D)) 0,
    if key.any isSpecial then -(key.length : ℤ) else key.length)

/-- `get_bucketp`. -/
def bucketOf (h : UInt64) : Fin 1024 := ⟨(1023 &&& mixHash h).toNat, mask_lt _ _ (by decide)⟩

/-- `struct _slot`. -/
structure Slot where
  key : Bytes
  hash : UInt64
  klen : ℤ
  deriving DecidableEq

/-- `struct _cache`. -/
abbrev Cache := Fin 1024 → List Slot

def slotOf (key : Bytes) : Slot := ⟨key, (calcHash key).1, (calcHash key).2⟩

/-- `key_set`. -/
def keySet (cache : Cache) (key : Bytes) : Cache :=
  let b := bucketOf (calcHash key).1
  Function.update cache b (slotOf key :: cache b)

/-- `key_cache`, after `agoo_http_init`. -/
def keyCache : Cache := headerKeys.foldl keySet fun _ => []

/-- The test of the lookup loop. -/
def Slot.matches (key : Bytes) (s : Slot) : Bool :=
  (calcHash key).1 == s.hash && (calcHash key).2 == s.klen &&
    ((0 ≤ (calcHash key).2 && (calcHash key).2 ≤ maxKeyUniq) || strncasecmp s.key key key.length)

/-- `%02x` of a `char`. -/
def hexChar (c : Byte) : Bytes := (if 0x80 ≤ c then bytes "ffffff" else []) ++ dumpHex c

/-- The loop over the value; `quoted` says that it is in a quoted string. -/
def checkValue : Bool → Bytes → Except Err Unit
  | quoted, [] => if quoted then .error (errSet .arg (bytes "HTTP header has unmatched quote.")) else .ok ()
  | quoted, c :: value =>
    if at0 headerValueChars c.toNat ≠ chr 'o' then
      .error (errSet .arg (hexChar c ++ bytes " is not a valid HTTP header value character."))
    else checkValue (if c = chr '"' then !quoted else quoted) value

/-- `agoo_http_header_ok`. -/
def headerOk (key value : Bytes) : Except Err Unit :=
  if (keyCache (bucketOf (calcHash key).1)).any (Slot.matches key) then checkValue false value
  else
    let buf := cstr (strncpy key (min key.length 255))
    .error (errSet .arg (buf ++ bytes " is not a valid HTTP header key."))

/-! ## What the check is for -/

/-- A newline or a printable ASCII character. -/
def ValueChar (c : Byte) : Prop := c = 10 ∨ 32 ≤ c ∧ c ≤ 126

instance (c : Byte) : Decidable (ValueChar c) := inferInstanceAs (Decidable (_ ∨ _))

/-- Allowed characters, with quotes in pairs. -/
def ValueGood (value : Bytes) : Prop := (∀ c ∈ value, ValueChar c) ∧ Even (value.count (chr '"'))

instance (value : Bytes) : Decidable (ValueGood value) := inferInstanceAs (Decidable (_ ∧ _))

/-- The key is in the table, but for the letter case. -/
def KnownKey (key : Bytes) : Prop := ∃ k ∈ headerKeys, k.map tolower = key.map tolower

/-- The keys that have the hash and the length of a key of the table, each but for bit 5 of its bytes. -/
def lookalikes : List Bytes :=
  ["`zim", "arbzseal", "alszsvc", "alszused", "bzext", "bzman", "bzopt", "bzpep", "cookid_",
    "errorrzto", "forlzsub", "iezmatch", "iezrange", "jabbeqzid", "lisszhelp", "lisszid", "lisszpost",
    "peozinfo", "replxzby", "replxzto", "resenszcc", "resenszto", "sinzlabel", "savdzdata", "sedzalso",
    "u`zcolor", "u`zmedia", "u`zpixels", "vbqzinfo", "wzpgp-sig", "x-pgozsig", "wzpgozsig", "wzuidh"].map octets

/-- A key of the range that is one of these but for bit 5. -/
def Lookalike (key : Bytes) : Prop :=
  key.any isSpecial = false ∧ ∃ l ∈ lookalikes, l.map (· ||| 0x20) = key.map (· ||| 0x20)

instance (key : Bytes) : Decidable (Lookalike key) := inferInstanceAs (Decidable (_ ∧ _))

/-! ## The table -/

/-- A letter, a digit or a dash. -/
def nameCode (n : ℕ) : Bool := n == 45 || (48 ≤ n && n ≤ 57) || (65 ≤ n && n ≤ 90) || (97 ≤ n && n ≤ 122)

/-- The digits that the hash reads in a key. -/
def spell (ns : List ℕ) : List ℕ := ns.map fun n => (n ||| 32) - 45

def codes (key : Bytes) : List ℕ := key.map UInt8.toNat

/-- The digit of a byte from a dash to a `z`. -/
def keyDigit (d : ℕ) : Bool := d ≤ 18 || (51 ≤ d && d ≤ 82)

/-- The digits of the short keys of the table. -/
def shortDigits : List (List ℕ) :=
  (headerKeys.map fun k => spell (codes k)).filter fun ns => ns.length ≤ maxKeyUniq

/-- The digits of the lookalikes. -/
def likeDigits : List (List ℕ) := lookalikes.map fun l => spell (codes l)

/-- What reads as the number of these digits is a lookalike or has the same digits. -/
def checkShort (likes : List (List ℕ)) (ns : List ℕ) : Bool :=
  (Radix.representations 77 keyDigit ns.length (Radix.horner 77 ns)).all fun ds => ds == ns || likes.contains ds

/-- These digits read as the number of a short key and are those of no short key. -/
def checkLike (short : List (List ℕ)) (ds : List ℕ) : Bool :=
  short.any (fun ns => Radix.horner 77 ns == Radix.horner 77 ds && ns.length == ds.length) && !short.contains ds

/-- The tables are read once. -/
theorem tables_check : (((headerKeys.map codes).all fun ns => !ns.isEmpty && ns.all nameCode) &&
    (shortDigits.all (checkShort likeDigits) && (likeDigits.all (checkLike shortDigits) &&
      lookalikes.all fun l => !l.any isSpecial))) = true := by decide +kernel

theorem headerKeys_names : ((headerKeys.map codes).all fun ns => !ns.isEmpty && ns.all nameCode) = true :=
  (Bool.and_eq_true_iff.mp tables_check).1

theorem shortDigits_check : shortDigits.all (checkShort likeDigits) = true :=
  (Bool.and_eq_true_iff.mp (Bool.and_eq_true_iff.mp tables_check).2).1

theorem likeDigits_check : likeDigits.all (checkLike shortDigits) = true :=
  (Bool.and_eq_true_iff.mp (Bool.and_eq_true_iff.mp (Bool.and_eq_true_iff.mp tables_check).2).2).1

theorem lookalikes_range : (lookalikes.all fun l => !l.any isSpecial) = true :=
  (Bool.and_eq_true_iff.mp (Bool.and_eq_true_iff.mp (Bool.and_eq_true_iff.mp tables_check).2).2).2

theorem of_any_false {key : Bytes} (h : key.any isSpecial = false) {c : Byte} (hc : c ∈ key) :
    isSpecial c = false :=
  Bool.eq_false_iff.mpr (List.any_eq_false.mp h c hc)

theorem any_false {key : Bytes} (h : ∀ c ∈ key, isSpecial c = false) : key.any isSpecial = false :=
  List.any_eq_false.mpr fun c hc => Bool.eq_false_iff.mp (h c hc)

/-- What the lookup needs to know of each byte. -/
structure ByteFacts (c : Byte) : Prop where
  fold : tolower c ||| 0x20 = c ||| 0x20
  lower : nameCode c.toNat = true → nameCode (tolower c).toNat = true ∧ tolower c = c ||| 0x20
  range : nameCode (tolower c).toNat = true → isSpecial c = false
  back : isSpecial c = false → nameCode (c ||| 0x20).toNat = true → tolower c = c ||| 0x20
  digit : isSpecial c = false → ((c ||| 0x20).toUInt64 - 0x2D).toNat = (c.toNat ||| 32) - 45 ∧
    keyDigit ((c.toNat ||| 32) - 45) = true ∧ (c ||| 0x20).toNat = (c.toNat ||| 32) - 45 + 45
  value : at0 headerValueChars c.toNat = chr 'o' ↔ ValueChar c

theorem byteFacts (c : Byte) : ByteFacts c := by
  have hall : ∀ n < 256, (fun c : Byte => tolower c ||| 0x20 = c ||| 0x20 ∧
      (nameCode c.toNat = true → nameCode (tolower c).toNat = true ∧ tolower c = c ||| 0x20) ∧
      (nameCode (tolower c).toNat = true → isSpecial c = false) ∧
      (isSpecial c = false → nameCode (c ||| 0x20).toNat = true → tolower c = c ||| 0x20) ∧
      (isSpecial c = false → ((c ||| 0x20).toUInt64 - 0x2D).toNat = (c.toNat ||| 32) - 45 ∧
        keyDigit ((c.toNat ||| 32) - 45) = true ∧ (c ||| 0x20).toNat = (c.toNat ||| 32) - 45 + 45) ∧
      (at0 headerValueChars c.toNat = chr 'o' ↔ ValueChar c)) (UInt8.ofNat n) := by decide +kernel
  obtain ⟨hfold, hlower, hrange, hback, hdigit, hvalue⟩ := UInt8.ofNat_toNat ▸ hall c.toNat c.toNat_lt
  exact ⟨hfold, hlower, hrange, hback, hdigit, hvalue⟩

theorem not_special_of_lower {c d : Byte} (hd : nameCode d.toNat = true) (h : tolower d = tolower c) :
    isSpecial c = false :=
  (byteFacts c).range (h ▸ ((byteFacts d).lower hd).1)

/-- A byte of the range that folds like a byte of a name is that byte, but for the letter case. -/
theorem lower_of_fold {c d : Byte} (hd : nameCode d.toNat = true) (hc : isSpecial c = false)
    (h : d ||| 0x20 = c ||| 0x20) : tolower d = tolower c := by
  obtain ⟨hname, hfold⟩ := (byteFacts d).lower hd
  rw [hfold, h] at hname
  rw [hfold, h, (byteFacts c).back hc hname]

/-! ## The cache -/

theorem mem_keySet (cache : Cache) (key : Bytes) (b : Fin 1024) (s : Slot) :
    s ∈ keySet cache key b ↔ (s = slotOf key ∧ bucketOf (slotOf key).hash = b) ∨ s ∈ cache b := by
  unfold keySet
  by_cases hb : b = bucketOf (calcHash key).1
  · subst hb
    rw [Function.update_self, List.mem_cons]
    exact ⟨fun h => h.imp_left fun hs => ⟨hs, rfl⟩, fun h => h.imp_left And.left⟩
  · rw [Function.update_of_ne hb]
    exact ⟨Or.inr, fun h => h.resolve_left fun hs => hb hs.2.symm⟩

theorem mem_keyCache (b : Fin 1024) (s : Slot) :
    s ∈ keyCache b ↔ ∃ k ∈ headerKeys, s = slotOf k ∧ bucketOf (slotOf k).hash = b := by
  have hfold : ∀ (ks : List Bytes) (cache : Cache), s ∈ ks.foldl keySet cache b ↔
      (∃ k ∈ ks, s = slotOf k ∧ bucketOf (slotOf k).hash = b) ∨ s ∈ cache b := by
    intro ks
    induction ks with
    | nil => exact fun cache => ⟨Or.inr, fun h => h.resolve_left fun ⟨k, hk, _⟩ => List.not_mem_nil hk⟩
    | cons k ks ih =>
      intro cache
      rw [List.foldl_cons, ih, mem_keySet]
      simp only [List.mem_cons, exists_eq_or_imp]
      exact or_left_comm.trans or_assoc.symm
  unfold keyCache
  rw [hfold]
  exact ⟨fun h => h.resolve_right List.not_mem_nil, Or.inl⟩

/-- A key is found when a key of the table passes the test. -/
theorem found_iff (key : Bytes) :
    (keyCache (bucketOf (calcHash key).1)).any (Slot.matches key) = true ↔
      ∃ k ∈ headerKeys, Slot.matches key (slotOf k) = true := by
  rw [List.any_eq_true]
  constructor
  · rintro ⟨s, hs, hmatch⟩
    obtain ⟨k, hk, rfl, -⟩ := (mem_keyCache _ _).mp hs
    exact ⟨k, hk, hmatch⟩
  · rintro ⟨k, hk, hmatch⟩
    refine ⟨slotOf k, (mem_keyCache _ _).mpr ⟨k, hk, rfl, ?_⟩, hmatch⟩
    unfold Slot.matches at hmatch
    rw [Bool.and_eq_true, Bool.and_eq_true, beq_iff_eq] at hmatch
    rw [hmatch.1.1]

/-! ## The hash -/

/-- The hash of a key depends on its folded bytes only. -/
theorem calcHash_congr {key k : Bytes} (h : k.map (· ||| 0x20) = key.map (· ||| 0x20)) :
    (calcHash k).1 = (calcHash key).1 := by
  have hfold : ∀ key : Bytes, (calcHash key).1 =
      (key.map (· ||| 0x20)).foldl (fun h c => 77 * h + (c.toUInt64 - 0x2D)) 0 := by
    intro key
    rw [List.foldl_map]
    rfl
  rw [hfold, hfold, h]

theorem keyDigit_lt {d : ℕ} (h : keyDigit d = true) : d ≤ 82 := by
  unfold keyDigit at h
  simp only [Bool.or_eq_true, decide_eq_true_eq, Bool.and_eq_true] at h
  omega

theorem spell_digits {key : Bytes} (hkey : key.any isSpecial = false) :
    ∀ d ∈ spell (codes key), keyDigit d = true := by
  intro d hd
  unfold spell codes at hd
  rw [List.map_map] at hd
  obtain ⟨c, hc, rfl⟩ := List.mem_map.mp hd
  exact ((byteFacts c).digit (of_any_false hkey hc)).2.1

theorem length_spell (key : Bytes) : (spell (codes key)).length = key.length := by
  unfold spell codes
  rw [List.length_map, List.length_map]

/-- The hash is the number that the key spells, cut to 64 bits. -/
theorem calcHash_toNat {key : Bytes} (hkey : key.any isSpecial = false) :
    (calcHash key).1.toNat = Radix.horner 77 (spell (codes key)) % 2 ^ 64 := by
  induction key using List.reverseRecOn with
  | nil => rfl
  | append_singleton key c ih =>
    rw [List.any_append, Bool.or_eq_false_iff, List.any_cons, List.any_nil, Bool.or_false] at hkey
    have hstep : (calcHash (key ++ [c])).1 = 77 * (calcHash key).1 + ((c ||| 0x20).toUInt64 - 0x2D) := by
      unfold calcHash
      rw [List.foldl_append]
      rfl
    have hspell : spell (codes (key ++ [c])) = spell (codes key) ++ [(c.toNat ||| 32) - 45] := by
      unfold spell codes
      rw [List.map_append, List.map_append]
      rfl
    have h77 : (77 : UInt64).toNat = 77 := rfl
    rw [hstep, hspell, Radix.horner_concat, UInt64.toNat_add, UInt64.toNat_mul, ih hkey.1,
      ((byteFacts c).digit hkey.2).1, h77]
    omega

/-- The hash of a short key is the number that it spells. -/
theorem calcHash_short {key : Bytes} (hkey : key.any isSpecial = false) (hlen : key.length ≤ maxKeyUniq) :
    (calcHash key).1.toNat = Radix.horner 77 (spell (codes key)) := by
  have hbound : Radix.horner 77 (spell (codes key)) + 2 ≤ 2 * 77 ^ (spell (codes key)).length :=
    Radix.horner_lt fun d hd => by have := keyDigit_lt (spell_digits hkey d hd); omega
  have hpow : (77 : ℕ) ^ (spell (codes key)).length ≤ 77 ^ 9 :=
    Nat.pow_le_pow_right (by decide) (length_spell key ▸ hlen)
  rw [calcHash_toNat hkey, Nat.mod_eq_of_lt]
  omega

/-- The digits say what the folded bytes are. -/
theorem spell_inj {key k : Bytes} (hkey : key.any isSpecial = false) (hk : k.any isSpecial = false) :
    spell (codes k) = spell (codes key) ↔ k.map (· ||| 0x20) = key.map (· ||| 0x20) := by
  have hdigits : ∀ key : Bytes, key.any isSpecial = false →
      (key.map (· ||| 0x20)).map UInt8.toNat = (spell (codes key)).map (· + 45) := by
    intro key hkey
    unfold spell codes
    rw [List.map_map, List.map_map, List.map_map]
    exact List.map_congr_left fun c hc => ((byteFacts c).digit (of_any_false hkey hc)).2.2
  constructor
  · intro h
    apply List.map_injective_iff.mpr (fun _ _ => UInt8.toNat_inj.mp)
    rw [hdigits k hk, hdigits key hkey, h]
  · intro h
    apply List.map_injective_iff.mpr (fun _ _ => Nat.add_right_cancel)
    rw [← hdigits k hk, ← hdigits key hkey, h]

/-! ## The lookup -/

theorem mem_shortDigits {ns : List ℕ} :
    ns ∈ shortDigits ↔ ∃ k ∈ headerKeys, spell (codes k) = ns ∧ k.length ≤ maxKeyUniq := by
  unfold shortDigits
  rw [List.mem_filter, List.mem_map]
  constructor
  · rintro ⟨⟨k, hk, rfl⟩, hlen⟩
    exact ⟨k, hk, rfl, length_spell k ▸ of_decide_eq_true hlen⟩
  · rintro ⟨k, hk, rfl, hlen⟩
    exact ⟨⟨k, hk, rfl⟩, decide_eq_true ((length_spell k).symm ▸ hlen)⟩

theorem headerKeys_name {k : Bytes} (hk : k ∈ headerKeys) : k ≠ [] ∧ ∀ d ∈ k, nameCode d.toNat = true := by
  have h := List.all_eq_true.mp headerKeys_names (codes k) (List.mem_map_of_mem hk)
  rw [Bool.and_eq_true, Bool.not_eq_true', List.isEmpty_eq_false_iff, List.all_eq_true] at h
  refine ⟨fun hnil => h.1 ?_, fun d hd => h.2 d.toNat (List.mem_map_of_mem hd)⟩
  rw [hnil]
  rfl

theorem headerKeys_range {k : Bytes} (hk : k ∈ headerKeys) : k.any isSpecial = false :=
  any_false fun d hd => not_special_of_lower ((headerKeys_name hk).2 d hd) rfl

/-- The test for a key of the table. -/
theorem matches_iff {key k : Bytes} (hk : k ∈ headerKeys) : Slot.matches key (slotOf k) = true ↔
    key.any isSpecial = false ∧ (calcHash key).1 = (calcHash k).1 ∧ key.length = k.length ∧
      (key.length ≤ maxKeyUniq ∨ strncasecmp k key key.length = true) := by
  have hklen : (calcHash k).2 = k.length := if_neg (by rw [headerKeys_range hk]; decide)
  have hpos : 0 < k.length := List.length_pos_of_ne_nil (headerKeys_name hk).1
  unfold Slot.matches slotOf
  simp only [Bool.and_eq_true, Bool.or_eq_true, beq_iff_eq, decide_eq_true_eq, hklen]
  by_cases hkey : key.any isSpecial = true
  · have hlen : (calcHash key).2 = -(key.length : ℤ) := if_pos hkey
    rw [hlen]
    constructor
    · rintro ⟨⟨-, h⟩, -⟩
      omega
    · rintro ⟨h, -⟩
      rw [hkey] at h
      exact absurd h (by decide)
  · have hlen : (calcHash key).2 = key.length := if_neg hkey
    rw [hlen]
    constructor
    · rintro ⟨⟨hhash, h⟩, htext⟩
      exact ⟨Bool.eq_false_iff.mpr hkey, hhash, Int.ofNat.inj h, htext.imp_left fun h => Int.ofNat_le.mp h.2⟩
    · rintro ⟨-, hhash, h, htext⟩
      exact ⟨⟨hhash, congrArg Nat.cast h⟩, htext.imp_left fun h => ⟨Int.natCast_nonneg _, Int.ofNat_le.mpr h⟩⟩

/-- Keys that are equal but for the letter case fold alike. -/
theorem fold_of_lower {key k : Bytes} (h : k.map tolower = key.map tolower) :
    k.map (· ||| 0x20) = key.map (· ||| 0x20) := by
  have hfold : ∀ key : Bytes, (key.map tolower).map (· ||| 0x20) = key.map (· ||| 0x20) := fun key => by
    rw [List.map_map]
    exact List.map_congr_left fun c _ => (byteFacts c).fold
  rw [← hfold, h, hfold]

theorem range_of_lower {key k : Bytes} (hk : ∀ d ∈ k, nameCode d.toNat = true)
    (h : k.map tolower = key.map tolower) : key.any isSpecial = false := by
  refine any_false fun c hc => ?_
  obtain ⟨d, hd, hdc⟩ := List.mem_map.mp (h ▸ List.mem_map_of_mem hc : tolower c ∈ k.map tolower)
  exact not_special_of_lower (hk d hd) hdc

/-- A key of the range that folds like a name is that name, but for the letter case. -/
theorem lower_of_folds {key k : Bytes} (hk : ∀ d ∈ k, nameCode d.toNat = true) (hkey : key.any isSpecial = false)
    (h : k.map (· ||| 0x20) = key.map (· ||| 0x20)) : k.map tolower = key.map tolower := by
  induction k generalizing key with
  | nil =>
    rw [List.map_eq_nil_iff.mp h.symm]
  | cons d k ih =>
    obtain _ | ⟨c, key⟩ := key
    · exact absurd h (List.cons_ne_nil _ _)
    · rw [List.map_cons, List.map_cons, List.cons.injEq] at h ⊢
      rw [List.any_cons, Bool.or_eq_false_iff] at hkey
      exact ⟨lower_of_fold (hk d (List.mem_cons_self ..)) hkey.1 h.1,
        ih (fun e he => hk e (List.mem_cons_of_mem d he)) hkey.2 h.2⟩

theorem cstr_range {key : Bytes} (hkey : key.any isSpecial = false) : cstr key = key := by
  refine List.takeWhile_eq_self_iff.mpr fun c hc => ?_
  have h := of_any_false hkey hc
  rw [bne_iff_ne]
  rintro rfl
  exact absurd h (by decide)

/-- The text comparison, for keys of one length. -/
theorem strncasecmp_iff {key k : Bytes} (hkey : key.any isSpecial = false) (hk : k.any isSpecial = false)
    (hlen : key.length = k.length) : strncasecmp k key key.length = true ↔ k.map tolower = key.map tolower := by
  unfold strncasecmp
  rw [cstr_range hkey, cstr_range hk, List.take_length, hlen, List.take_length, beq_iff_eq]

theorem like_range {l : Bytes} (hl : l ∈ lookalikes) : l.any isSpecial = false := by
  have h := List.all_eq_true.mp lookalikes_range l hl
  rwa [Bool.not_eq_true'] at h

/-- A lookalike reads as a short key and is spelled like none. -/
theorem like_spec {key : Bytes} (h : Lookalike key) :
    (∃ k ∈ headerKeys, Slot.matches key (slotOf k) = true) ∧ key.length ≤ maxKeyUniq ∧
      spell (codes key) ∉ shortDigits := by
  obtain ⟨hkey, l, hl, hfold⟩ := h
  have hspell := (spell_inj hkey (like_range hl)).mpr hfold
  have hcheck := List.all_eq_true.mp likeDigits_check _ (List.mem_map_of_mem hl)
  unfold checkLike at hcheck
  rw [hspell, Bool.and_eq_true, Bool.not_eq_true', List.contains_eq_mem, decide_eq_false_iff_not,
    List.any_eq_true] at hcheck
  obtain ⟨⟨ns, hns, hread⟩, hnot⟩ := hcheck
  rw [Bool.and_eq_true, beq_iff_eq, beq_iff_eq, length_spell] at hread
  obtain ⟨k, hk, rfl, hshort⟩ := mem_shortDigits.mp hns
  rw [length_spell] at hread
  have hlen : key.length ≤ maxKeyUniq := hread.2 ▸ hshort
  refine ⟨⟨k, hk, (matches_iff hk).mpr ⟨hkey, ?_, hread.2.symm, Or.inl hlen⟩⟩, hlen, hnot⟩
  apply UInt64.toNat_inj.mp
  rw [calcHash_short hkey hlen, calcHash_short (headerKeys_range hk) hshort, hread.1]

theorem like_not_known {key : Bytes} (h : Lookalike key) : ¬ KnownKey key := by
  rintro ⟨k, hk, hlower⟩
  obtain ⟨-, hshort, hnot⟩ := like_spec h
  have hlen : k.length = key.length := by simpa using congrArg List.length hlower
  exact hnot (mem_shortDigits.mpr
    ⟨k, hk, (spell_inj h.1 (headerKeys_range hk)).mpr (fold_of_lower hlower), hlen ▸ hshort⟩)

/-- A short key with the hash and the length of a key of the table. -/
theorem short_found {key k : Bytes} (hk : k ∈ headerKeys) (hkey : key.any isSpecial = false)
    (hhash : (calcHash key).1 = (calcHash k).1) (hlen : key.length = k.length)
    (hshort : key.length ≤ maxKeyUniq) :
    KnownKey key ∨ Lookalike key := by
  have hshort' : k.length ≤ maxKeyUniq := hlen ▸ hshort
  have hread : Radix.horner 77 (spell (codes key)) = Radix.horner 77 (spell (codes k)) := by
    rw [← calcHash_short hkey hshort, hhash, calcHash_short (headerKeys_range hk) hshort']
  have hmem : spell (codes key) ∈ Radix.representations 77 keyDigit (spell (codes key)).length
      (Radix.horner 77 (spell (codes key))) :=
    Radix.mem_representations fun d hd =>
      ⟨spell_digits hkey d hd, by have := keyDigit_lt (spell_digits hkey d hd); omega⟩
  have hcheck := List.all_eq_true.mp shortDigits_check _ (mem_shortDigits.mpr ⟨k, hk, rfl, hshort'⟩)
  unfold checkShort at hcheck
  rw [length_spell, ← hlen, ← hread, ← length_spell key, List.all_eq_true] at hcheck
  obtain heq | hlike := Bool.or_eq_true_iff.mp (hcheck _ hmem)
  · have hfold := (spell_inj hkey (headerKeys_range hk)).mp (beq_iff_eq.mp heq).symm
    exact Or.inl ⟨k, hk, lower_of_folds (headerKeys_name hk).2 hkey hfold⟩
  · obtain ⟨l, hl, hspell⟩ := List.mem_map.mp (List.contains_iff_mem.mp hlike)
    exact Or.inr ⟨hkey, l, hl, (spell_inj hkey (like_range hl)).mp hspell⟩

/-- The keys that are found. -/
theorem matches_known (key : Bytes) :
    (∃ k ∈ headerKeys, Slot.matches key (slotOf k) = true) ↔ KnownKey key ∨ Lookalike key := by
  constructor
  · rintro ⟨k, hk, hmatch⟩
    obtain ⟨hkey, hhash, hlen, hshort | htext⟩ := (matches_iff hk).mp hmatch
    · exact short_found hk hkey hhash hlen hshort
    · exact Or.inl ⟨k, hk, (strncasecmp_iff hkey (headerKeys_range hk) hlen).mp htext⟩
  · rintro (⟨k, hk, hlower⟩ | hlike)
    · have hkey := range_of_lower (headerKeys_name hk).2 hlower
      have hlen : key.length = k.length := by simpa using (congrArg List.length hlower).symm
      exact ⟨k, hk, (matches_iff hk).mpr ⟨hkey, (calcHash_congr (fold_of_lower hlower)).symm, hlen,
        Or.inr ((strncasecmp_iff hkey (headerKeys_range hk) hlen).mpr hlower)⟩⟩
    · exact (like_spec hlike).1

/-! ## The value -/

/-- The loop wants what is left to hold an odd number of quotes in a quoted string. -/
theorem checkValue_iff (quoted : Bool) (value : Bytes) : checkValue quoted value = .ok () ↔
    (∀ c ∈ value, ValueChar c) ∧ (Even (value.count (chr '"')) ↔ quoted = false) := by
  induction value generalizing quoted with
  | nil => cases quoted <;> simp [checkValue]
  | cons c value ih =>
    rw [checkValue]
    by_cases hc : ValueChar c
    · rw [if_neg (not_not.mpr ((byteFacts c).value.mpr hc)), ih, List.forall_mem_cons]
      by_cases hquote : c = chr '"'
      · subst hquote
        rw [if_pos rfl, List.count_cons_self, Nat.even_add_one]
        cases quoted <;> simp [hc]
      · rw [if_neg hquote, List.count_cons_of_ne hquote]
        simp only [hc, true_and]
    · rw [if_pos (fun h => hc ((byteFacts c).value.mp h))]
      simp [hc]

/-! ## The check -/

/-- What passes. -/
theorem headerOk_iff (key value : Bytes) :
    headerOk key value = .ok () ↔ (KnownKey key ∨ Lookalike key) ∧ ValueGood value := by
  unfold headerOk
  rw [← matches_known, ← found_iff]
  by_cases hfound : (keyCache (bucketOf (calcHash key).1)).any (Slot.matches key) = true
  · rw [if_pos hfound, checkValue_iff]
    simp [hfound, ValueGood]
  · rw [if_neg hfound]
    simp [hfound]

/-- The check takes the known headers with good values, except that it takes lookalikes too. -/
theorem header_ok_iff (key value : Bytes) :
    (headerOk key value = .ok () ↔ KnownKey key ∧ ValueGood value) ↔ ¬ (Lookalike key ∧ ValueGood value) := by
  rw [headerOk_iff, or_and_right]
  constructor
  · rintro h hlike
    exact like_not_known hlike.1 (h.mp (Or.inr hlike)).1
  · exact fun h => ⟨fun hor => hor.resolve_right h, Or.inl⟩

/-- `SedzAlso` passes for `See-Also`. -/
theorem sedzalso_passes :
    ¬ (headerOk (octets "SedzAlso") (octets "x") = .ok () ↔
      KnownKey (octets "SedzAlso") ∧ ValueGood (octets "x")) := by
  have hlike : Lookalike (octets "SedzAlso") := by decide +kernel
  have hgood : ValueGood (octets "x") := by decide +kernel
  exact fun h => like_not_known hlike (h.mp ((headerOk_iff _ _).mpr ⟨Or.inr hlike, hgood⟩)).1

end Http

end Agoo
