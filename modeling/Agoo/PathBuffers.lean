import Agoo.Numbers
import Agoo.Page

/-!
# The buffers of paths (`agoo_domain_resolve`, `agoo_page_get`)

The root of a domain may be a template with `$(n)` for what a group of the regular expression matched. It is
written to a buffer of the caller, and then, with the request path, to the 2048 bytes of `full_path`. `buffers_iff`:
when no write is behind a buffer, no read before it, and no group read but the eight.
-/

namespace Agoo

namespace PathBuffers

/-! ## The code -/

/-- `regmatch_t`: what a group matched of the host, if it did. -/
structure Match (host : Bytes) where
  so : ℤ
  eo : ℤ
  valid : so < 0 ∨ so ≤ eo ∧ eo ≤ host.length

/-- `struct _domain`. With no host it has a regular expression. `path` goes on behind its NUL. -/
structure Domain where
  host : Option Bytes
  path : Bytes
  rhost : Bytes

/-- What `regexec` finds: the first `MAX_MATCH` groups. -/
abbrev Regexec := Bytes → (host : Bytes) → Option (Fin 8 → Match host)

variable (regexec : Regexec) {host : Bytes}

/-- The loop over a template, from the byte behind the next `skip` on; `out` is what is in the buffer. Without
a value, a group with a number below 0 is read. -/
def expand (ms : Fin 8 → Match host) (bend : ℤ) : ℕ → Bytes → Bytes → Option Bytes
  | _, [], out => some out
  | skip + 1, _ :: p, out => expand ms bend skip p out
  | 0, c :: p, out =>
    if c = 0 then some out
    else if c = chr '$' ∧ at0 p 0 = chr '(' then
      let q := p.drop 1
      let i := strtol q
      let end' := numberEnd q
      -- the group may be skipped before its parenthesis, and the end of the template with it
      if at0 q end' ≠ chr ')' ∨ 8 ≤ i then expand ms bend 2 p out
      else if i < 0 then none
      else
        let m := ms (Fin.ofNat 8 i.toNat)
        if m.so < 0 then expand ms bend (end' + 2) p out
        else if bend - out.length ≤ m.eo - m.so then expand ms bend (end' + 2) p out
        else expand ms bend (end' + 2) p (out ++ (host.drop m.so.toNat).take (m.eo - m.so).toNat)
    else expand ms bend 0 p (out ++ [c])

/-- What `agoo_domain_resolve` returns. -/
inductive Resolved
  | null
  | path (path : Bytes)
  | buf (text : Bytes)
  | stray
  deriving DecidableEq, Repr

/-- `agoo_domain_resolve`. -/
def domainResolve (host : Bytes) (blen : ℕ) : List Domain → Resolved
  | [] => .null
  | d :: ds =>
    match d.host with
    | some h => if strcmp host h then .path d.path else domainResolve host blen ds
    | none =>
      match regexec d.rhost host with
      | none => domainResolve host blen ds
      | some ms => (expand ms (blen - 1) 0 d.path []).elim .stray .buf

/-- How many bytes of `full_path` are written, and whether the one before it is read. -/
structure Touched where
  written : ℕ
  below : Bool

/-- What `agoo_page_get` does to `full_path`; the root is copied before any check. -/
def pageGetTouched (fs : Fs) (cacheRoot root : Option Bytes) (path : Bytes) (plen : ℕ) : Touched :=
  let s := cstr ((root <|> cacheRoot).getD [])
  let copied := (root <|> cacheRoot).elim 0 fun r => strlen r + 1
  let slash := if s.getLast?.getD fs.below ≠ chr '/' ∧ at0 path 0 ≠ chr '/' then s.length + 1 else 0
  let rest := (fullPath fs cacheRoot root path plen).elim 0 fun full => full.length + 1
  ⟨max (max copied slash) rest, s = []⟩

/-! ## The law -/

/-- The buffer has room for all that was written, and only the eight groups were read. -/
def Resolved.Safe (blen : ℕ) : Resolved → Prop
  | .buf text => text.length + 1 ≤ blen
  | .stray => False
  | _ => True

def Touched.Safe (t : Touched) : Prop := t.written ≤ fullPathSize ∧ t.below = false

/-! ## When it is kept -/

/-- A byte of a template, or the number of a group. -/
inductive Piece
  | literal
  | group (i : ℤ)
  deriving DecidableEq, Repr

/-- The pieces of a template, from the byte behind the next `skip` on. -/
def pieces : ℕ → Bytes → List Piece
  | _, [] => []
  | skip + 1, _ :: p => pieces skip p
  | 0, c :: p =>
    if c = 0 then []
    else if c = chr '$' ∧ at0 p 0 = chr '(' then
      let q := p.drop 1
      if at0 q (numberEnd q) ≠ chr ')' ∨ 8 ≤ strtol q then pieces 2 p
      else .group (strtol q) :: pieces (numberEnd q + 2) p
    else .literal :: pieces 0 p

/-- How many bytes a group matched. -/
def matched (ms : Fin 8 → Match host) (i : ℤ) : ℤ :=
  let m := ms (Fin.ofNat 8 i.toNat)
  if m.so < 0 then 0 else m.eo - m.so

/-- Some pieces fit in so much room, where a group that does not leave some of it is left out. -/
def Room (ms : Fin 8 → Match host) : ℤ → List Piece → Prop
  | room, [] => 0 ≤ room
  | room, .literal :: ps => Room ms (room - 1) ps
  | room, .group i :: ps => Room ms (if matched ms i < room then room - matched ms i else room) ps

/-- The domain is the one of the host. -/
def Domain.answers (host : Bytes) (d : Domain) : Bool :=
  match d.host with
  | some h => strcmp host h
  | none => (regexec d.rhost host).isSome

/-- The template of the first domain that answers, if it has one, has no group below 0 and finds room. -/
def Fits (domains : List Domain) (host : Bytes) (blen : ℕ) : Prop :=
  ∀ d ms, domains.find? (Domain.answers regexec host) = some d → d.host = none → regexec d.rhost host = some ms →
    (∀ i, .group i ∈ pieces 0 d.path → 0 ≤ i) ∧ Room ms (blen - 1) (pieces 0 d.path)

/-- There is a root, and it is neither empty nor too long. -/
def RootOk (root : Option Bytes) : Prop := ∃ r, root = some r ∧ 0 < strlen r ∧ strlen r < fullPathSize

/-! ## Templates -/

theorem groups_cons {i : ℤ} (hi : 0 ≤ i) {ps : List Piece} :
    (∀ j, .group j ∈ Piece.group i :: ps → 0 ≤ j) ↔ ∀ j, .group j ∈ ps → 0 ≤ j := by
  refine ⟨fun h j hj => h j (List.mem_cons_of_mem _ hj), fun h j hj => ?_⟩
  rcases List.mem_cons.mp hj with hj | hj
  · obtain rfl := Piece.group.inj hj
    exact hi
  · exact h j hj

/-- What is copied of the host is what the group matched. -/
theorem length_copied {m : Match host} (h : ¬ m.so < 0) :
    (((host.drop m.so.toNat).take (m.eo - m.so).toNat).length : ℤ) = m.eo - m.so := by
  have hvalid := m.valid.resolve_left h
  rw [List.length_take, List.length_drop]
  omega

/-- What the loop writes, and which groups it reads. -/
theorem expand_iff (ms : Fin 8 → Match host) (bend : ℤ) (p : Bytes) : ∀ (skip : ℕ) (out : Bytes),
    (∃ text, expand ms bend skip p out = some text ∧ text.length ≤ bend) ↔
      (∀ i, .group i ∈ pieces skip p → 0 ≤ i) ∧ Room ms (bend - out.length) (pieces skip p) := by
  induction p with
  | nil =>
    intro skip out
    unfold expand pieces
    simp [Room]
  | cons c p ih =>
    intro skip out
    cases skip with
    | succ skip => exact ih skip out
    | zero =>
      unfold expand pieces
      dsimp only
      split_ifs with hnul hgroup hbad hneg hmiss hlong
      · simp [Room]
      · exact ih 2 out
      · -- a group below 0
        refine iff_of_false (fun h => ?_) fun h => ?_
        · obtain ⟨text, hnone, -⟩ := h
          cases hnone
        · exact absurd (h.1 _ List.mem_cons_self) (Int.not_le.mpr hneg)
      · rw [ih, groups_cons (Int.not_lt.mp hneg), Room, matched, if_pos hmiss, Int.sub_zero, ite_self]
      · rw [ih, groups_cons (Int.not_lt.mp hneg), Room, matched, if_neg hmiss, if_neg (Int.not_lt.mpr hlong)]
      · rw [ih, groups_cons (Int.not_lt.mp hneg), Room, matched, if_neg hmiss, if_pos (Int.not_le.mp hlong),
          List.length_append]
        have hlen := length_copied hmiss
        push_cast
        rw [hlen, ← Int.sub_sub]
      · rw [ih, Room, List.length_append]
        push_cast
        rw [← Int.sub_sub]
        refine and_congr_left fun _ => ⟨fun h j hj => h j ?_, fun h j hj => h j (List.mem_cons_of_mem _ hj)⟩
        exact (List.mem_cons.mp hj).resolve_left nofun

/-- **What `agoo_domain_resolve` writes is in its buffer if the template fits.** -/
theorem resolve_iff (domains : List Domain) (host : Bytes) (blen : ℕ) :
    (domainResolve regexec host blen domains).Safe blen ↔ Fits regexec domains host blen := by
  induction domains with
  | nil =>
    refine iff_of_true trivial fun d ms hfind => ?_
    cases hfind
  | cons d ds ih =>
    have hskip (h : d.answers regexec host = false) :
        Fits regexec (d :: ds) host blen ↔ Fits regexec ds host blen := by
      unfold Fits
      simp only [List.find?_cons, h]
    have hfirst (h : d.answers regexec host = true) :
        (d :: ds).find? (Domain.answers regexec host) = some d := by
      rw [List.find?_cons, h]
    cases hhost : d.host with
    | some h =>
      by_cases hsame : strcmp host h = true
      · have hanswers : d.answers regexec host = true := by rw [Domain.answers, hhost]; exact hsame
        unfold domainResolve
        rw [hhost]
        dsimp only
        rw [if_pos hsame]
        refine iff_of_true trivial fun e ms hfind hnone => ?_
        obtain rfl := Option.some.inj ((hfirst hanswers).symm.trans hfind)
        rw [hhost] at hnone
        cases hnone
      · have hanswers : d.answers regexec host = false := by
          rw [Domain.answers, hhost]
          exact Bool.eq_false_iff.mpr hsame
        unfold domainResolve
        rw [hhost, hskip hanswers, ← ih]
        dsimp only
        rw [if_neg hsame]
    | none =>
      cases hmatch : regexec d.rhost host with
      | none =>
        have hanswers : d.answers regexec host = false := by rw [Domain.answers, hhost, hmatch]; rfl
        unfold domainResolve
        rw [hhost, hmatch, hskip hanswers, ← ih]
      | some ms =>
        have hanswers : d.answers regexec host = true := by rw [Domain.answers, hhost, hmatch]; rfl
        have hfits : Fits regexec (d :: ds) host blen ↔
            (∀ i, .group i ∈ pieces 0 d.path → 0 ≤ i) ∧ Room ms (blen - 1) (pieces 0 d.path) := by
          refine ⟨fun h => h d ms (hfirst hanswers) hhost hmatch, fun h e ms' hfind _ hmatch' => ?_⟩
          obtain rfl := Option.some.inj ((hfirst hanswers).symm.trans hfind)
          obtain rfl := Option.some.inj (hmatch.symm.trans hmatch')
          exact h
        have hexpand := expand_iff ms (blen - 1) d.path 0 []
        rw [List.length_nil, Int.natCast_zero, Int.sub_zero] at hexpand
        unfold domainResolve
        rw [hhost, hmatch, hfits, ← hexpand]
        dsimp only
        cases expand ms (blen - 1) 0 d.path [] with
        | none => simp [Resolved.Safe]
        | some text =>
          simp only [Option.elim_some, Resolved.Safe, Option.some.injEq, exists_eq_left']
          omega

/-! ## Pages -/

theorem length_decodeLoop (n : ℕ) : ∀ (m : Bytes) (skip : ℕ), (decodeLoop m skip n).length ≤ n := by
  induction n with
  | zero =>
    intro m skip
    cases skip <;> exact Nat.le_refl 0
  | succ n ih =>
    intro m skip
    cases skip with
    | succ skip => exact Nat.le_succ_of_le (ih m.tail skip)
    | zero =>
      unfold decodeLoop
      split_ifs
      · exact Nat.succ_le_succ (ih m.tail 2)
      · exact Nat.succ_le_succ (ih m.tail 0)

theorem length_decodePath (path : Bytes) (plen : ℕ) : (decodePath path plen).length ≤ plen := by
  unfold decodePath
  split_ifs
  · exact length_decodeLoop plen path 0
  · unfold strncpy
    rw [List.length_append, List.length_take, List.length_replicate]
    omega

/-- A full path is written with its NUL, if there is room for it. -/
theorem length_fullPath (fs : Fs) (cacheRoot root : Option Bytes) (path : Bytes) (plen : ℕ) :
    ((fullPath fs cacheRoot root path plen).elim 0 fun full => full.length + 1) ≤ fullPathSize := by
  have hdecode := length_decodePath path plen
  unfold fullPath
  dsimp only
  split_ifs with hslash hlong hlong
  · exact Nat.zero_le _
  · rw [Option.elim_some, List.length_append]
    omega
  · exact Nat.zero_le _
  · rw [Option.elim_some, List.length_append]
    omega

/-- **What `agoo_page_get` writes is in `full_path` if the root is.** -/
theorem page_iff (fs : Fs) (cacheRoot root : Option Bytes) (path : Bytes) (plen : ℕ) :
    (pageGetTouched fs cacheRoot root path plen).Safe ↔ RootOk (root <|> cacheRoot) := by
  have hrest := length_fullPath fs cacheRoot root path plen
  unfold pageGetTouched Touched.Safe RootOk
  dsimp only
  generalize ((fullPath fs cacheRoot root path plen).elim 0 fun full => full.length + 1) = rest at hrest
  cases root <|> cacheRoot with
  | none =>
    refine iff_of_false (fun h => ?_) fun ⟨r, hr, _⟩ => ?_
    · cases h.2
    · cases hr
  | some r =>
    rw [Option.elim_some, Option.getD_some]
    generalize hslash : (if (cstr r).getLast?.getD fs.below ≠ chr '/' ∧ at0 path 0 ≠ chr '/' then
      (cstr r).length + 1 else 0) = slash
    have hle : slash ≤ strlen r + 1 := by
      rw [← hslash]
      split_ifs
      · exact Nat.le_refl _
      · exact Nat.zero_le _
    have hempty : decide (cstr r = []) = false ↔ 0 < strlen r := by
      rw [decide_eq_false_iff_not, strlen, List.length_pos_iff]
    rw [hempty]
    constructor
    · rintro ⟨hwritten, hpos⟩
      exact ⟨r, rfl, hpos, by omega⟩
    · rintro ⟨r', hr', hpos, hlt⟩
      obtain rfl := Option.some.inj hr'
      exact ⟨by omega, hpos⟩

/-- **No buffer is overrun if the template of the host's domain fits and the root is neither empty nor too
long.** -/
theorem buffers_iff (regexec : Regexec) (domains : List Domain) (host : Bytes) (blen : ℕ) (fs : Fs)
    (cacheRoot root : Option Bytes) (path : Bytes) (plen : ℕ) :
    ((domainResolve regexec host blen domains).Safe blen ∧ (pageGetTouched fs cacheRoot root path plen).Safe) ↔
      Fits regexec domains host blen ∧ RootOk (root <|> cacheRoot) :=
  and_congr (resolve_iff regexec domains host blen) (page_iff fs cacheRoot root path plen)

/-- Nothing is there to be read. -/
def noFiles : Fs where
  fopen _ := none
  stat _ := none
  restat _ := none
  access _ := false
  dtime := 0
  below := 0

/-- A root of 2048 bytes is copied whole. -/
theorem long_root_overruns : ¬ ∀ (regexec : Regexec) (domains : List Domain) (host : Bytes) (blen : ℕ) (fs : Fs)
    (cacheRoot root : Option Bytes) (path : Bytes) (plen : ℕ),
    (domainResolve regexec host blen domains).Safe blen ∧
      (pageGetTouched fs cacheRoot root path plen).Safe := by
  intro h
  have hsafe := (h (fun _ _ => none) [] (bytes "a") 20148 noFiles none (some (List.replicate 2048 (chr 'a')))
    (bytes "/x") 2).2
  obtain ⟨r, hr, -, hlt⟩ := (page_iff _ _ _ _ _).mp hsafe
  obtain rfl := Option.some.inj hr
  rw [strlen, cstr_of_not_mem, List.length_replicate] at hlt
  · exact absurd hlt (by decide)
  · exact fun hmem => absurd (List.eq_of_mem_replicate hmem) (by decide)

end PathBuffers

end Agoo
