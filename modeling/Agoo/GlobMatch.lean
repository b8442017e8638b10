import Agoo.Page
import Mathlib.Data.List.TakeWhile

/-!
# Glob patterns (`agoo_hook_match`, `path_match`)

A pattern is a list of tokens, where `*` stands for one token of the path and `**` at the end for everything
that remains. The loop compares a byte with the pattern before it asks for a wildcard, and stops when the path
ends: a part that begins with `*`, or nothing at the end, is not what a wildcard takes (`glob_iff`).
-/

namespace Agoo

namespace Glob

/-! ## Patterns as documented -/

/-- Text of a token without a wildcard. -/
abbrev Literal := { s : Bytes // ∀ c ∈ s, c ≠ 0 ∧ c ≠ chr '/' ∧ c ≠ chr '*' }

inductive Token
  | lit (s : Literal)
  | star

/-- Tokens with a `/` between them; the last one may end in `**`. -/
inductive Pattern
  | last (t : Token)
  | remaining (s : Literal)
  | cons (t : Token) (g : Pattern)

def Token.text : Token → Bytes
  | lit s => s.1
  | star => [chr '*']

def Pattern.text : Pattern → Bytes
  | last t => t.text
  | remaining s => s.1 ++ [chr '*', chr '*']
  | cons t g => t.text ++ chr '/' :: g.text

/-- What a wildcard stands for: a token, the last one or another, or all that remains. -/
inductive Wild
  | token (last : Bool) (s : Bytes)
  | remaining (s : Bytes)

inductive Token.Reads : Token → Bool → Bytes → List Wild → Prop
  | lit (s : Literal) (last : Bool) : Reads (.lit s) last s.1 []
  | star {s : Bytes} (last : Bool) (h : chr '/' ∉ s) : Reads .star last s [.token last s]

/-- `g.Reads path ws`: the pattern matches the path with `ws` for its wildcards. -/
inductive Pattern.Reads : Pattern → Bytes → List Wild → Prop
  | last {t : Token} {s : Bytes} {ws : List Wild} (h : t.Reads true s ws) : Reads (.last t) s ws
  | remaining (s : Literal) (r : Bytes) : Reads (.remaining s) (s.1 ++ r) [.remaining r]
  | cons {t : Token} {g : Pattern} {a b : Bytes} {ws ws' : List Wild} (h : t.Reads false a ws)
      (hg : Reads g b ws') : Reads (.cons t g) (a ++ chr '/' :: b) (ws ++ ws')

def Pattern.Matches (g : Pattern) (path : Bytes) : Prop := ∃ ws, g.Reads path ws

/-- A token that does not begin with `*`, or is no more than that. -/
def Token.Plain (s : Bytes) : Prop := s.head? ≠ some (chr '*') ∨ s = [chr '*']

/-- What the loop takes for a wildcard: tokens, the last one not empty; what remains is not empty either, and
behind a `*` it is as the last token. -/
def Wild.Taken : Wild → Prop
  | token last s => (last = true → s ≠ []) ∧ Token.Plain s
  | remaining s => s ≠ [] ∧
      (s.head? = some (chr '*') → s.tail ≠ [] ∧ chr '/' ∉ s.tail ∧ Token.Plain s.tail)

/-- Every wildcard stands for something that the loop takes. -/
def Pattern.Plain (g : Pattern) (path : Bytes) : Prop := ∀ ws, g.Reads path ws → ∀ w ∈ ws, w.Taken

/-! ## The hooks -/

/-- The path of a request without one `/` at its end. -/
def trimEnd (path : Bytes) : Bytes :=
  if 1 < path.length ∧ path.getLast? = some (chr '/') then path.dropLast else path

/-- The path of a page without one `/` at its start. -/
def trimStart (path : Bytes) : Bytes := if path.head? = some (chr '/') then path.tail else path

/-- `agoo_server_add_func_hook` and `handle`: the hook is put behind the last one. -/
def addHook (hooks : List Hook) (hook : Hook) : List Hook :=
  match hooks with
  | [] => [hook]
  | h :: hooks => h :: addHook hooks hook

/-- The hooks of a server, from the first that is registered to the last. -/
def registered (hooks : List Hook) : List Hook := hooks.foldl addHook []

/-- Hooks and header rules with the pattern match as documented. -/
structure AsDocumented (g : Pattern) (hook : Hook) (method : Method) (path page : Bytes) : Prop where
  hooked : method = hook.method ∨ hook.method = .all →
    (hookMatch { hook with pattern := g.text } method path = true ↔ g.Matches (trimEnd path))
  paged : pathMatch g.text (some page) = true ↔ g.Matches (trimStart (cstr page))
  agree : method = hook.method ∨ hook.method = .all → trimEnd path = trimStart (cstr page) →
    hookMatch { hook with pattern := g.text } method path = pathMatch g.text (some page)
  first : ∀ hooks h, hookFind (registered hooks) method path = some h ↔
    ∃ before after, hooks = before ++ h :: after ∧ hookMatch h method path = true ∧
      ∀ h' ∈ before, hookMatch h' method path = false

/-! ## The loop -/

theorem globLoop_literal (s : Literal) {pat path : Bytes} :
    globLoop (s.1 ++ pat) path = true ↔ ∃ rest, path = s.1 ++ rest ∧ globLoop pat rest = true := by
  obtain ⟨s, hs⟩ := s
  induction s generalizing path with
  | nil => simp
  | cons c s ih =>
    obtain ⟨-, -, hstar⟩ := hs c List.mem_cons_self
    cases path with
    | nil => simp [globLoop]
    | cons d path =>
      rw [List.cons_append, globLoop]
      by_cases hd : d = c
      · rw [if_pos hd, ih fun c hc => hs c (List.mem_cons_of_mem _ hc)]
        simp [hd]
      · rw [if_neg hd, if_neg hstar]
        simp [hd]

theorem globLoop_slash {pat path : Bytes} :
    globLoop (chr '/' :: pat) path = true ↔ ∃ b, path = chr '/' :: b ∧ globLoop pat b = true := by
  cases path with
  | nil => simp [globLoop]
  | cons d path =>
    rw [globLoop]
    by_cases hd : d = chr '/'
    · rw [if_pos hd]
      simp [hd]
    · rw [if_neg hd, if_neg (by decide)]
      simp [hd]

/-- A byte that is no `*` where the pattern has one wildcard. -/
theorem globLoop_star {pat path : Bytes} {c : Byte} (hc : c ≠ chr '*') (hpat : pat.head? ≠ some (chr '*')) :
    globLoop (chr '*' :: pat) (c :: path) = globLoop pat ((c :: path).dropWhile (· ≠ chr '/')) := by
  rw [globLoop, if_neg hc, if_pos rfl, if_neg hpat]

theorem dropWhile_slash {path : Bytes} : path.dropWhile (· ≠ chr '/') = [] ↔ chr '/' ∉ path := by
  rw [List.dropWhile_eq_nil_iff]
  simp only [ne_eq, decide_not, Bool.not_eq_eq_eq_not, Bool.not_true, decide_eq_false_iff_not]
  exact ⟨fun h hmem => h _ hmem rfl, fun h x hx he => h (he ▸ hx)⟩

theorem dropWhile_slash_cons {path b : Bytes} : path.dropWhile (· ≠ chr '/') = chr '/' :: b ↔
    ∃ a, path = a ++ chr '/' :: b ∧ chr '/' ∉ a := by
  constructor
  · intro h
    refine ⟨path.takeWhile (· ≠ chr '/'), ?_, fun hmem => ?_⟩
    · rw [← h, List.takeWhile_append_dropWhile]
    · simpa using List.mem_takeWhile_imp hmem
  · rintro ⟨a, rfl, ha⟩
    rw [List.dropWhile_append_of_pos]
    · rw [List.dropWhile_cons_of_neg (by simp)]
    · intro x hx
      simpa using fun h : x = chr '/' => ha (h ▸ hx)

theorem globLoop_nil {path : Bytes} : globLoop [] path = true ↔ path = [] := by
  cases path with
  | nil => simp [globLoop]
  | cons c path => simp [globLoop]

/-- `*` before a `/`. -/
theorem globLoop_token {pat path : Bytes} : globLoop (chr '*' :: chr '/' :: pat) path = true ↔
    ∃ a b, path = a ++ chr '/' :: b ∧ chr '/' ∉ a ∧ Token.Plain a ∧ globLoop pat b = true := by
  cases path with
  | nil => simp [globLoop]
  | cons c path =>
    by_cases hc : c = chr '*'
    · -- the byte is taken for itself, so that the token has to end behind it
      subst hc
      rw [globLoop, if_pos rfl, globLoop_slash]
      constructor
      · rintro ⟨b, rfl, h⟩
        exact ⟨[chr '*'], b, rfl, by decide, .inr rfl, h⟩
      · rintro ⟨a, b, hab, -, hplain, h⟩
        cases a with
        | nil => exact absurd (List.cons.inj hab).1 (by decide)
        | cons d a =>
          obtain rfl := (List.cons.inj hab).1
          have ha : a = [] := by
            rcases hplain with hne | heq
            · exact absurd rfl hne
            · exact (List.cons.inj heq).2
          rw [ha] at hab
          exact ⟨b, (List.cons.inj hab).2, h⟩
    · have hslash : (chr '/' :: pat).head? ≠ some (chr '*') := fun h => absurd (Option.some.inj h) (by decide)
      rw [globLoop_star hc hslash, globLoop_slash]
      constructor
      · rintro ⟨b, hb, h⟩
        obtain ⟨a, ha, hmem⟩ := dropWhile_slash_cons.mp hb
        refine ⟨a, b, ha, hmem, .inl ?_, h⟩
        cases a with
        | nil => nofun
        | cons d a =>
          rw [← (List.cons.inj ha).1]
          exact fun h => hc (Option.some.inj h)
      · rintro ⟨a, b, hab, hmem, -, h⟩
        exact ⟨b, dropWhile_slash_cons.mpr ⟨a, hab, hmem⟩, h⟩

/-- `*` at the end. -/
theorem globLoop_last {path : Bytes} :
    globLoop [chr '*'] path = true ↔ path ≠ [] ∧ chr '/' ∉ path ∧ Token.Plain path := by
  cases path with
  | nil => simp [globLoop]
  | cons c path =>
    by_cases hc : c = chr '*'
    · subst hc
      rw [globLoop, if_pos rfl, globLoop_nil]
      constructor
      · rintro rfl
        exact ⟨List.cons_ne_nil _ _, by decide, .inr rfl⟩
      · rintro ⟨-, -, hne | heq⟩
        · exact absurd rfl hne
        · exact (List.cons.inj heq).2
    · rw [globLoop_star hc (by decide), globLoop_nil, dropWhile_slash]
      refine ⟨fun h => ⟨List.cons_ne_nil _ _, h, .inl fun h => hc (Option.some.inj h)⟩, fun h => h.2.1⟩

/-- `**`. -/
theorem globLoop_remaining {path : Bytes} :
    globLoop [chr '*', chr '*'] path = true ↔ (Wild.remaining path).Taken := by
  unfold Wild.Taken
  cases path with
  | nil => simp [globLoop]
  | cons c path =>
    rw [globLoop]
    by_cases hc : c = chr '*'
    · subst hc
      rw [if_pos rfl, globLoop_last]
      simp
    · rw [if_neg hc, if_pos rfl]
      simp [hc]

/-- The loop matches what the pattern matches with wildcards that it takes. -/
theorem globLoop_iff {g : Pattern} {path : Bytes} :
    globLoop g.text path = true ↔ ∃ ws, g.Reads path ws ∧ ∀ w ∈ ws, w.Taken := by
  induction g generalizing path with
  | last t =>
    cases t with
    | lit s =>
      have h := @globLoop_literal s [] path
      rw [List.append_nil] at h
      change globLoop s.1 path = true ↔ _
      rw [h]
      constructor
      · rintro ⟨rest, rfl, hrest⟩
        rw [globLoop_nil.mp hrest, List.append_nil]
        exact ⟨[], .last (.lit s true), nofun⟩
      · rintro ⟨ws, hreads, -⟩
        cases hreads with
        | last h =>
          cases h
          exact ⟨[], (List.append_nil _).symm, globLoop_nil.mpr rfl⟩
    | star =>
      change globLoop [chr '*'] path = true ↔ _
      rw [globLoop_last]
      constructor
      · rintro ⟨hne, hmem, hplain⟩
        refine ⟨_, .last (.star true hmem), ?_⟩
        simp [Wild.Taken, hne, hplain]
      · rintro ⟨ws, hreads, htaken⟩
        cases hreads with
        | last h =>
          cases h with
          | star _ hmem =>
            obtain ⟨hne, hplain⟩ := htaken _ (List.mem_singleton_self _)
            exact ⟨hne rfl, hmem, hplain⟩
  | remaining s =>
    change globLoop (s.1 ++ [chr '*', chr '*']) path = true ↔ _
    rw [globLoop_literal]
    constructor
    · rintro ⟨rest, rfl, hrest⟩
      refine ⟨_, .remaining s rest, ?_⟩
      simpa using globLoop_remaining.mp hrest
    · rintro ⟨ws, hreads, htaken⟩
      cases hreads with
      | remaining _ r => exact ⟨r, rfl, globLoop_remaining.mpr (htaken _ (List.mem_singleton_self _))⟩
  | cons t g ih =>
    cases t with
    | lit s =>
      change globLoop (s.1 ++ chr '/' :: g.text) path = true ↔ _
      rw [globLoop_literal]
      constructor
      · rintro ⟨rest, rfl, hrest⟩
        obtain ⟨b, rfl, hb⟩ := globLoop_slash.mp hrest
        obtain ⟨ws, hreads, htaken⟩ := ih.mp hb
        exact ⟨ws, .cons (.lit s false) hreads, htaken⟩
      · rintro ⟨ws, hreads, htaken⟩
        cases hreads with
        | cons h hg =>
          cases h
          exact ⟨_, rfl, globLoop_slash.mpr ⟨_, rfl, ih.mpr ⟨_, hg, htaken⟩⟩⟩
    | star =>
      change globLoop (chr '*' :: chr '/' :: g.text) path = true ↔ _
      rw [globLoop_token]
      constructor
      · rintro ⟨a, b, rfl, hmem, hplain, hb⟩
        obtain ⟨ws, hreads, htaken⟩ := ih.mp hb
        refine ⟨_, .cons (.star false hmem) hreads, fun w hw => ?_⟩
        rcases List.mem_cons.mp hw with rfl | hw
        · exact ⟨nofun, hplain⟩
        · exact htaken w hw
      · rintro ⟨ws, hreads, htaken⟩
        cases hreads with
        | cons h hg =>
          cases h with
          | star _ hmem =>
            have hplain := (htaken _ List.mem_cons_self).2
            exact ⟨_, _, rfl, hmem, hplain, ih.mpr ⟨_, hg, fun w hw => htaken w (List.mem_cons_of_mem _ hw)⟩⟩

/-! ## One reading -/

theorem Token.Reads.no_slash {t : Token} {last : Bool} {s : Bytes} {ws : List Wild} (h : t.Reads last s ws) :
    chr '/' ∉ s := by
  cases h with
  | lit s => exact fun hmem => (s.2 _ hmem).2.1 rfl
  | star _ hmem => exact hmem

theorem Token.Reads.unique {t : Token} {last : Bool} {s : Bytes} {ws ws' : List Wild} (h : t.Reads last s ws)
    (h' : t.Reads last s ws') : ws = ws' := by
  cases h with
  | lit s =>
    generalize hs : s.1 = r at h'
    cases h'
    rfl
  | star _ hmem =>
    cases h'
    rfl

theorem split_slash {a a' b b' : Bytes} (ha : chr '/' ∉ a) (ha' : chr '/' ∉ a')
    (h : a ++ chr '/' :: b = a' ++ chr '/' :: b') : a = a' ∧ b = b' := by
  have hb : (a ++ chr '/' :: b).dropWhile (· ≠ chr '/') = chr '/' :: b := dropWhile_slash_cons.mpr ⟨a, rfl, ha⟩
  rw [h, dropWhile_slash_cons.mpr ⟨a', rfl, ha'⟩] at hb
  obtain rfl := (List.cons.inj hb).2
  exact ⟨List.append_cancel_right h, rfl⟩

theorem Pattern.Reads.unique {g : Pattern} {path : Bytes} {ws ws' : List Wild} (h : g.Reads path ws)
    (h' : g.Reads path ws') : ws = ws' := by
  induction h generalizing ws' with
  | last h =>
    cases h' with
    | last h' => exact h.unique h'
  | remaining s r =>
    generalize hpath : s.1 ++ r = path at h'
    cases h' with
    | remaining _ r' =>
      rw [List.append_cancel_left hpath]
  | @cons t g a b ws₁ ws₂ h hg ih =>
    generalize hpath : a ++ chr '/' :: b = path at h'
    cases h' with
    | cons h' hg' =>
      obtain ⟨rfl, rfl⟩ := split_slash h.no_slash h'.no_slash hpath
      rw [h.unique h', ih hg']

/-- The loop is right about a path if and only if it takes what the wildcards stand for. -/
theorem globLoop_right {g : Pattern} {path : Bytes} :
    (globLoop g.text path = true ↔ g.Matches path) ↔ g.Plain path := by
  rw [globLoop_iff]
  constructor
  · intro h ws hreads
    obtain ⟨ws', hreads', htaken⟩ := h.mpr ⟨ws, hreads⟩
    rw [hreads.unique hreads']
    exact htaken
  · intro h
    exact ⟨fun ⟨ws, hreads, _⟩ => ⟨ws, hreads⟩, fun ⟨ws, hreads⟩ => ⟨ws, hreads, h ws hreads⟩⟩

/-! ## Hooks and header rules -/

theorem Token.zero_not_mem (t : Token) : 0 ∉ t.text := by
  cases t with
  | lit s => exact fun h => (s.2 0 h).1 rfl
  | star => decide

theorem Pattern.cstr_text (g : Pattern) : cstr g.text = g.text := by
  refine cstr_of_not_mem ?_
  induction g with
  | last t => exact t.zero_not_mem
  | remaining s =>
    refine fun h => (List.mem_append.mp h).elim (fun h => (s.2 0 h).1 rfl) ?_
    decide
  | cons t g ih =>
    refine fun h => (List.mem_append.mp h).elim t.zero_not_mem fun h => ?_
    exact (List.mem_cons.mp h).elim (by decide) ih

theorem addHook_eq (hooks : List Hook) (hook : Hook) : addHook hooks hook = hooks ++ [hook] := by
  induction hooks with
  | nil => rfl
  | cons h hooks ih => exact congrArg (h :: ·) ih

theorem registered_eq (hooks : List Hook) : registered hooks = hooks := by
  unfold registered
  induction hooks using List.reverseRecOn with
  | nil => rfl
  | append_singleton hooks hook ih =>
    rw [List.foldl_append, ih]
    exact addHook_eq hooks hook

theorem hookFind_first {hooks : List Hook} {method : Method} {path : Bytes} {h : Hook} :
    hookFind (registered hooks) method path = some h ↔ ∃ before after, hooks = before ++ h :: after ∧
      hookMatch h method path = true ∧ ∀ h' ∈ before, hookMatch h' method path = false := by
  unfold hookFind
  rw [registered_eq, List.find?_eq_some_iff_append]
  constructor
  · rintro ⟨hmatch, before, after, heq, hnone⟩
    exact ⟨before, after, heq, hmatch, fun h' hmem => by simpa using hnone h' hmem⟩
  · rintro ⟨before, after, heq, hmatch, hnone⟩
    exact ⟨hmatch, before, after, heq, fun h' hmem => by simp [hnone h' hmem]⟩

theorem hookMatch_eq {g : Pattern} {hook : Hook} {method : Method} {path : Bytes}
    (h : method = hook.method ∨ hook.method = .all) :
    hookMatch { hook with pattern := g.text } method path = globLoop g.text (trimEnd path) := by
  unfold hookMatch
  dsimp only
  rw [if_neg fun hne => h.elim hne.1 hne.2, g.cstr_text]
  rfl

theorem pathMatch_eq {g : Pattern} {page : Bytes} :
    pathMatch g.text (some page) = globLoop g.text (trimStart (cstr page)) := by
  unfold pathMatch
  dsimp only
  rw [g.cstr_text]
  rfl

/-- Patterns match as documented if and only if every wildcard stands for a token that does not begin with
`*` (or is no more than that) and is not empty at the end, and `**` for something of that kind. -/
theorem glob_iff (g : Pattern) (hook : Hook) (method : Method) (path page : Bytes) :
    AsDocumented g hook method path page ↔
      (method = hook.method ∨ hook.method = .all → g.Plain (trimEnd path)) ∧
        g.Plain (trimStart (cstr page)) := by
  have hpage : (pathMatch g.text (some page) = true ↔ g.Matches (trimStart (cstr page))) ↔
      g.Plain (trimStart (cstr page)) := by
    rw [pathMatch_eq]
    exact globLoop_right
  have hhook (h : method = hook.method ∨ hook.method = .all) :
      (hookMatch { hook with pattern := g.text } method path = true ↔ g.Matches (trimEnd path)) ↔
        g.Plain (trimEnd path) := by
    rw [hookMatch_eq h]
    exact globLoop_right
  constructor
  · intro h
    exact ⟨fun hm => (hhook hm).mp (h.hooked hm), hpage.mp h.paged⟩
  · rintro ⟨hplain, hplain'⟩
    refine ⟨fun hm => (hhook hm).mpr (hplain hm), hpage.mpr hplain', fun hm heq => ?_, fun _ _ => hookFind_first⟩
    rw [hookMatch_eq hm, pathMatch_eq, heq]

/-- The hook `/*` and the path `/*a`. -/
theorem star_token_missed : ¬ AsDocumented (.cons (.lit ⟨[], nofun⟩) (.last .star))
    ⟨.get, [], false, false⟩ .get (bytes "/*a") (bytes "b") := by
  intro h
  have hmatch := (h.hooked (.inl rfl)).mpr ⟨_, .cons (.lit ⟨[], nofun⟩ false) (.last (.star true ?_))⟩
  · exact absurd hmatch (by decide)
  · decide

end Glob

end Agoo
