import Agoo.HeaderLines

/-!
# Looking up a header

`agoo_con_header_value` and `agoo_req_header_value` search a header as it is in a request, or behind the
request line in `c->buf`. They know a line by the key and a colon: for a key without a colon that is the name
of the line (`header_value_found`).
-/

namespace Agoo

/-- `agoo_req_header_value`, on the bytes from `req->header.start` on. -/
def reqHeaderValue (m : Bytes) (hlen : ℕ) (key : Bytes) : Option (ℕ × ℕ) := conHeaderValue m hlen key

/-- The lines that are searched: in `c->buf` the request line is before the header. -/
def searched (req : Option RawLine) (lines : List HeaderLine) : List RawLine :=
  req.toList ++ lines.map HeaderLine.raw

/-- Memory begins with the key and a colon, but for the letter case. -/
def BeginsWithKey (key m : Bytes) : Prop := (key ++ [chr ':']).map tolower <+: m.map tolower

instance (key m : Bytes) : Decidable (BeginsWithKey key m) := inferInstanceAs (Decidable (_ <+: _))

/-- A byte that is no small letter is its own lower case only. -/
theorem eq_of_tolower {c d : Byte} (hd : d < 97 ∨ 122 < d) (h : tolower c = d) : c = d := by
  unfold tolower at h
  split_ifs at h with hupper
  · exfalso
    have hnat : (c.toNat + 32) % 256 = d.toNat := congrArg UInt8.toNat h
    have hlow : 65 ≤ c.toNat := hupper.1
    have hhigh : c.toNat ≤ 90 := hupper.2
    rcases hd with hd | hd
    · have hlt : d.toNat < 97 := hd
      omega
    · have hlt : 122 < d.toNat := hd
      omega
  · exact h

theorem plainKey_of {key : Bytes} (hzero : 0 ∉ key) (hcolon : chr ':' ∉ key) : PlainKey key := by
  intro c hc
  exact ⟨fun h => hzero (h ▸ hc), fun h => hcolon (eq_of_tolower (by decide) h ▸ hc)⟩

/-- A key that matches is what memory begins with. -/
theorem beginsWithKey_of_matches {key m : Bytes} (hzero : 0 ∉ key) (h : keyMatches key m = true) :
    BeginsWithKey key m := by
  unfold keyMatches strncasecmp at h
  rw [Bool.and_eq_true, beq_iff_eq, beq_iff_eq, cstr_of_not_mem hzero, List.take_length] at h
  obtain ⟨hsame, hcolon⟩ := h
  obtain ⟨v, hv⟩ := cstr_isPre m
  have hlen : key.length ≤ (cstr m).length := by
    have hmap := congrArg List.length hsame
    simp only [List.length_map, List.length_take] at hmap
    omega
  have htake : m.take key.length = (cstr m).take key.length := by
    conv_lhs => rw [← hv]
    exact List.take_append_of_le_length hlen
  have hsplit : m = (cstr m).take key.length ++ chr ':' :: m.drop (key.length + 1) := by
    have hne : at0 m key.length ≠ 0 := by
      rw [hcolon]
      decide
    rw [← htake, ← hcolon, ← drop_cons_of_at0 hne, List.take_append_drop]
  refine ⟨(m.drop (key.length + 1)).map tolower, ?_⟩
  conv_rhs => rw [hsplit]
  rw [List.map_append, List.map_append, hsame, List.append_assoc]
  rfl

/-- The bytes behind the request line. -/
theorem Finds.behind_line {t : Bytes} {ls : List HeaderLine} {found : Option (ℕ × ℕ)}
    {line : Option (HeaderLine × List HeaderLine)} (u : RawLine) (h : Finds (headerMem ls t) t found line) :
    Finds (rawMem (searched (some u) ls) t) t (found.map fun v => (u.text.length + 2 + v.1, v.2)) line := by
  have hbehind := h.behind (u := u.text ++ crlf)
  rw [List.append_assoc, List.length_append, ← rawMem_lines] at hbehind
  exact hbehind

/-- **Both functions find the value of the first line with that name**, for a key without a colon with which,
in `c->buf`, the request line does not begin up to a colon. -/
theorem header_value_found {key : Bytes} (hzero : 0 ∉ key) (hcolon : chr ':' ∉ key) (req : Option RawLine)
    (lines : List HeaderLine) (t : Bytes)
    (hreq : req ≠ none → ¬ BeginsWithKey key (rawMem (searched req lines) t)) :
    Finds (rawMem (searched req lines) t) t
        (conHeaderValue (rawMem (searched req lines) t) (rawLen (searched req lines)) key) (firstLine key lines) ∧
      reqHeaderValue (rawMem (searched req lines) t) (rawLen (searched req lines)) key =
        conHeaderValue (rawMem (searched req lines) t) (rawLen (searched req lines)) key := by
  refine ⟨?_, rfl⟩
  have hfirst := firstAt_lines (plainKey_of hzero hcolon) lines t
  rw [conHeaderValue_raw]
  cases req with
  | none =>
    rw [← rawMem_lines] at hfirst
    exact hfirst
  | some u =>
    have hmatch : keyMatches key (rawMem (u :: lines.map HeaderLine.raw) t) = false := by
      rw [← Bool.not_eq_true]
      exact fun h => hreq (Option.some_ne_none u) (beginsWithKey_of_matches hzero h)
    have hbehind := hfirst.behind_line u
    unfold searched at hbehind ⊢
    rw [Option.toList_some, List.singleton_append] at hbehind ⊢
    rw [firstAt, if_neg (by rw [hmatch]; decide)]
    exact hbehind

/-- A request line with an absolute target, and a line whose value has a colon. -/
def absoluteLine : RawLine :=
  ⟨bytes "GET http://a/ HTTP/1.1", by decide, by decide, by decide⟩

def colonLine : HeaderLine :=
  ⟨bytes "a", 0, bytes "b:c", plainName_of_all rfl, plainValue_of_all rfl, by decide⟩

theorem short_key_found :
    Finds (rawMem (searched (some absoluteLine) [colonLine]) crlf) crlf
        (conHeaderValue (rawMem (searched (some absoluteLine) [colonLine]) crlf)
          (rawLen (searched (some absoluteLine) [colonLine])) (bytes "A")) (firstLine (bytes "A") [colonLine]) ∧
      reqHeaderValue (rawMem (searched (some absoluteLine) [colonLine]) crlf)
          (rawLen (searched (some absoluteLine) [colonLine])) (bytes "A") =
        conHeaderValue (rawMem (searched (some absoluteLine) [colonLine]) crlf)
          (rawLen (searched (some absoluteLine) [colonLine])) (bytes "A") :=
  header_value_found (by decide) (by decide) _ _ _ fun _ => by decide

/-- The key `a:b` is found in the line of `a`, and `GET http` in the request line. -/
theorem colon_key_found :
    ¬ Finds (rawMem (searched none [colonLine]) crlf) crlf
        (conHeaderValue (rawMem (searched none [colonLine]) crlf) (rawLen (searched none [colonLine]))
          (bytes "a:b"))
        (firstLine (bytes "a:b") [colonLine]) ∧
      ¬ Finds (rawMem (searched (some absoluteLine) [colonLine]) crlf) crlf
        (conHeaderValue (rawMem (searched (some absoluteLine) [colonLine]) crlf)
          (rawLen (searched (some absoluteLine) [colonLine])) (bytes "GET http"))
        (firstLine (bytes "GET http") [colonLine]) := by
  refine ⟨fun h => ?_, fun h => ?_⟩
  · change conHeaderValue _ _ _ = none at h
    revert h
    decide
  · change conHeaderValue _ _ _ = none at h
    revert h
    decide

end Agoo
