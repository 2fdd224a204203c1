import StackAssembler.Proofs.Source.Words

/-!
# Inputs that cannot be read

Before there are words a program must be turned into characters, and all that can go wrong with that
has to do with the encoding: there is none of the name, the text has no form in it, or the bytes are
no text in it.  Such a failure is about no word.  It has no place at first, and if it is one of the
program then it gets the place up to which words have been cut.

## Main definitions

* `Failure.OfInput`: what can be wrong with the input of a program.
-/

namespace StackAssembler

/-- What can be wrong with the input of a program. -/
inductive Failure.OfInput (location : Option Location) : Failure → Prop
  | malformed (encoding : String) (offset : Nat) (flaw : Encoding.Flaw) :
      OfInput location (.program ⟨.malformed encoding offset flaw, location⟩)
  | surrogate (codePoint offset : Nat) :
      OfInput location (.program ⟨.surrogate codePoint offset, location⟩)
  | missingMark (bits : Nat) : OfInput location (.internal (.missingMark bits))
  | unknownEncoding (name : String) : OfInput location (.internal (.unknownEncoding name))
  | nulInName : OfInput location (.internal .nulInName)
  | unwritable (text : Encoding.Unwritable) : OfInput location (.internal (.unwritable text))

theorem Failure.OfInput.locate {failure : Failure} (h : failure.OfInput none)
    (location : Location) : (failure.locate location).OfInput (some location) := by
  cases h <;> constructor

namespace Source

variable {encoding : String} {failure : Failure}

theorem ofInput_of_scheme {location : Option Location} (h : scheme encoding = .error failure) :
    failure.OfInput location := by
  rw [scheme] at h
  split at h
  · cases h
  · cases h
    split
    · exact .unknownEncoding encoding
    · exact .nulInName

/-- An encoding that there is not is no matter of the program. -/
theorem scheme_ne_program (encoding : String) (diagnostic : Diagnostic) :
    scheme encoding ≠ .error (.program diagnostic) := by
  intro h
  rw [scheme] at h
  split at h <;> cases h

/-- A text that cannot be written. -/
theorem ofInput_of_toBytes {source : Source} {location : Option Location}
    (h : source.toBytes encoding = .error failure) : failure.OfInput location := by
  cases source with
  | bytes data => cases h
  | text characters =>
      rw [toBytes] at h
      split at h
      · next other hscheme =>
          cases h
          exact ofInput_of_scheme hscheme
      · split at h
        · cases h
        · next unwritable _ =>
            cases h
            exact .unwritable unwritable

/-- That is no matter of the program either. -/
theorem toBytes_ne_program (source : Source) (encoding : String) (diagnostic : Diagnostic) :
    source.toBytes encoding ≠ .error (.program diagnostic) := by
  intro h
  cases source with
  | bytes data => cases h
  | text characters =>
      rw [toBytes] at h
      split at h
      · next hscheme =>
          cases h
          exact scheme_ne_program encoding diagnostic hscheme
      · split at h <;> cases h

section Decoding

variable {P : Failure → Prop} (hsurrogate : ∀ n offset, P (.program ⟨.surrogate n offset, none⟩))
include hsurrogate

/-- Handing out code points fails at one that is no character, or later. -/
theorem failure_of_deliver {offset k : Nat} {rest : Reading Char} {codePoints : List Nat}
    (hrest : rest.failure? = some failure → P failure)
    (h : (deliver offset k rest codePoints).failure? = some failure) : P failure := by
  induction codePoints with
  | nil => exact hrest h
  | cons n more ih =>
      rw [deliver] at h
      split at h
      · exact ih h
      · cases h
        exact hsurrogate n offset

/-- **What holds of everything that can be wrong with bytes holds of what reading fails with.** -/
theorem failure_of_readFrom (hfault : ∀ offset fault, P (decodingFailure encoding offset fault))
    {decoder : Encoding.Decoder} {state : decoder.State} {offset : Nat} {bytes : List UInt8}
    (h : (readFrom encoding decoder state offset bytes).failure? = some failure) : P failure := by
  induction bytes generalizing state offset with
  | nil =>
      rw [readFrom] at h
      split at h
      · refine failure_of_deliver hsurrogate (fun hdone => ?_) h
        cases hdone
      · cases h
        exact hfault ..
  | cons byte bytes ih =>
      rw [readFrom] at h
      split at h
      · exact failure_of_deliver hsurrogate ih h
      · cases h
        exact hfault ..

end Decoding

theorem ofInput_of_characters {bytes : List UInt8}
    (h : (characters encoding bytes).failure? = some failure) : failure.OfInput none := by
  rw [characters] at h
  split at h
  · next other hscheme =>
      cases h
      exact ofInput_of_scheme hscheme
  · refine failure_of_readFrom (fun n offset => .surrogate n offset) (fun offset fault => ?_) h
    cases fault <;> constructor

/-- What is wrong with bytes is a matter of the program in two cases: they are no text in the
encoding, or they spell a surrogate.  It has no place in the text yet. -/
theorem cause_of_characters {bytes : List UInt8} {diagnostic : Diagnostic}
    (h : (characters encoding bytes).failure? = some (.program diagnostic)) :
    diagnostic.location = none ∧
      ((∃ offset flaw, diagnostic.cause = .malformed encoding offset flaw) ∨
        ∃ n offset, diagnostic.cause = .surrogate n offset) := by
  rw [characters] at h
  split at h
  · next other hscheme =>
      cases h
      exact absurd hscheme (scheme_ne_program encoding diagnostic)
  · refine failure_of_readFrom
      (P := fun failure => ∀ diagnostic, failure = .program diagnostic →
        diagnostic.location = none ∧
          ((∃ offset flaw, diagnostic.cause = .malformed encoding offset flaw) ∨
            ∃ n offset, diagnostic.cause = .surrogate n offset))
      ?_ ?_ h diagnostic rfl
    · rintro n offset _ ⟨⟩
      exact ⟨rfl, .inr ⟨n, offset, rfl⟩⟩
    · intro offset fault _ heq
      cases fault with
      | malformed flaw =>
          cases heq
          exact ⟨rfl, .inl ⟨offset, flaw, rfl⟩⟩
      | missingMark => cases heq

/-- It is about no word. -/
theorem unplaced_of_characters {bytes : List UInt8} {diagnostic : Diagnostic}
    (h : (characters encoding bytes).failure? = some (.program diagnostic)) :
    diagnostic.cause.isReading = true ∧ diagnostic.cause.word? = none ∧
      diagnostic.location = none := by
  obtain ⟨hlocation, ⟨_, _, hcause⟩ | ⟨_, _, hcause⟩⟩ := cause_of_characters h <;>
    exact ⟨by rw [hcause]; rfl, by rw [hcause]; rfl, hlocation⟩

/-- A failure to read words is one of the input, with the place reached. -/
theorem ofInput_of_tokens {file : String} {bytes : List UInt8}
    (h : (tokens file encoding bytes).failure? = some failure) :
    ∃ location, failure.OfInput location := by
  rw [tokens, Token.failure?_ofCharacters, Option.map_eq_some_iff] at h
  obtain ⟨other, hother, rfl⟩ := h
  exact ⟨_, (ofInput_of_characters hother).locate _⟩

/-- A failure of the program is given the place reached. -/
theorem exists_place_of_tokens {file : String} {bytes : List UInt8} {diagnostic : Diagnostic}
    (h : (tokens file encoding bytes).failure? = some (.program diagnostic)) :
    ∃ place : Position, diagnostic.location = some (.ofPosition file place) ∧
      ((∃ offset flaw, diagnostic.cause = .malformed encoding offset flaw) ∨
        ∃ n offset, diagnostic.cause = .surrogate n offset) := by
  rw [tokens, Token.failure?_ofCharacters, Option.map_eq_some_iff] at h
  obtain ⟨failure, hfailure, hlocate⟩ := h
  refine ⟨(Cutting.first.after (characters encoding bytes).items).here, ?_⟩
  cases failure with
  | program other =>
      obtain ⟨cause, location⟩ := other
      obtain ⟨rfl, hcause⟩ := cause_of_characters hfailure
      rcases hcause with ⟨offset, flaw, rfl⟩ | ⟨n, offset, rfl⟩
      · cases hlocate
        exact ⟨rfl, .inl ⟨offset, flaw, rfl⟩⟩
      · cases hlocate
        exact ⟨rfl, .inr ⟨n, offset, rfl⟩⟩
  | _ => cases hlocate

end Source

end StackAssembler
