import Agoo.SdlDoc

/-!
# The cursor stays in the document

The two parsers are scanners, so a run of either leaves the document exactly at a call that does not
fit. There are two such calls: a comment that no newline ends, whose loop looks for one past the NUL,
and the value of the empty string `""` as the last two bytes, which is copied from behind the NUL.

`sdl_inside_iff` is the law of the runs, `parse_inside_of_ended` a condition on the text.
-/

namespace Agoo

open Agoo.Parser

variable {text : Bytes} {σ τ δ φ : Type}

/-- The entries of `sdl.c`, with what they get beside the text. -/
inductive SdlEntry (τ : Type)
  /-- `sdl_parse`. -/
  | schema
  /-- `sdl_parse_doc`. -/
  | document (vars : List (GqlVar τ)) (kind : GqlOpKind)

def SdlEntry.parse (reg : Registry σ τ δ φ) (fuel : ℕ) : SdlEntry τ → Parser text σ Unit
  | schema => sdlParse reg fuel
  | document vars kind => do
    let _ ← sdlParseDoc reg fuel vars kind

/-- A parse of a text from its start, on a registry in state `s`. -/
def SdlEntry.parseText (entry : SdlEntry τ) (reg : Registry σ τ δ φ) (fuel : ℕ) (text : Bytes)
    (err : Option Err) (s : σ) : Outcome Unit × DocState text σ :=
  (entry.parse reg fuel).run (docInit text err s)

/-- **A parse stays in the document exactly when every comment it skips is ended by a newline and it
reads no string value at `""`, the last two bytes.** -/
theorem sdl_inside_iff (reg : Registry σ τ δ φ) (entry : SdlEntry τ) (fuel : ℕ) (text : Bytes)
    (err : Option Err) (s : σ) :
    (entry.parseText reg fuel text err s).1 ≠ .fault ↔
      ∀ e ∈ (entry.parseText reg fuel text err s).2.log, e.Fits := by
  have hfault := (entry.parse reg fuel).fault_iff (s := docInit text err s) (by simp [docInit])
  rw [SdlEntry.parseText, ne_eq, hfault]
  simp

/-- The query is read, and then the comment behind it leads past the end. -/
theorem comment_leaves :
    ¬ ∀ (entry : SdlEntry Bytes) (fuel : ℕ) (text : Bytes) (err : Option Err),
      (entry.parseText nameRegistry fuel text err ()).1 ≠ .fault := by
  intro h
  refine h (.document [] .query) 8 (bytes "\x7ba\x7d # all") none ?_
  decide +kernel

/-! ## Texts -/

/-- Every number sign has a newline behind it, and the text does not end in two quotes. -/
structure Ended (text : Bytes) : Prop where
  comment : ∀ p, at0 text p = chr '#' → (text.drop p).any isNewline
  string : ¬ bytes "\"\"" <:+ text

/-- Just in such a text every call fits, whatever the parser does. -/
theorem ended_iff_fits : Ended text ↔ ∀ e : DocEvent text, e.Fits := by
  constructor
  · intro h e
    cases e with
    | comment p hash => exact h.comment p hash
    | string p quote =>
      intro hlast
      refine h.string ⟨text.take p, ?_⟩
      have hcons : text.drop p = chr '"' :: text.drop (p + 1) := by
        rw [drop_cons_of_at0 (by rw [quote]; decide), quote]
      rw [show bytes "\"\"" = chr '"' :: bytes "\"" from rfl, ← hlast, ← hcons,
        List.take_append_drop]
    | item p => exact item_fits p
  · intro h
    refine ⟨fun p hash => h (.comment p hash), ?_⟩
    rintro ⟨front, rfl⟩
    have hdrop : (front ++ bytes "\"\"").drop front.length = bytes "\"\"" := List.drop_left
    obtain ⟨hquote, hlast⟩ := drop_succ_of_drop hdrop
    exact h (.string front.length hquote) hlast

/-- **In a text whose comments are ended and that does not end in two quotes neither parser leaves the
document.** -/
theorem parse_inside_of_ended (reg : Registry σ τ δ φ) (entry : SdlEntry τ) (fuel : ℕ) {text : Bytes}
    (h : Ended text) (err : Option Err) (s : σ) :
    (entry.parseText reg fuel text err s).1 ≠ .fault :=
  (sdl_inside_iff reg entry fuel text err s).mpr fun e _ => ended_iff_fits.mp h e

end Agoo
