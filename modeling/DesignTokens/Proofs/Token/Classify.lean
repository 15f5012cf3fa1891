import DesignTokens.Proofs.Token.Bare

/-!
# The property of a word

A word is read for one property, or the property that it belongs to is asked
for. Both come to the same (`classify_exact`): the properties are asked one after
the other, and each of them may find its name in front of a value that it does
not know, but no two names can be in front of one dash. So it is of no account
in which order they are asked.

What is written for a property is read back for it, and for no other property,
also behind modifiers (`classify_written`).
-/

namespace DesignTokens

open Text

/-! ## Asking property after property -/

/-- What a property says of a bare token: nothing if the token does not start with its name or has a
value that it does not know, and otherwise the property itself, with pixels where the value has
some. -/
def Property.claim? (p : Property) (bare : List Char) : Option (Property × Option Nat) := do
  let key ← p.key? bare
  if key.head? = some '[' then
    let n ← bracketPixels? key
    return (p, some n)
  else
    let entry ← p.scale.find? fun e => e.1.toList = key
    return (p, some entry.2)

/-- The word is cut down to its bare token, and the first property that claims it has it. -/
def claimed? (order : List Property) (word : List Char) : Option (Property × Option Nat) :=
  order.findSome? fun p => p.claim? (bareToken word)

theorem Property.claim?_eq (p : Property) (bare : List Char) :
    p.claim? bare = (p.barePixels? bare).map fun n => (p, some n) := by
  rw [claim?, barePixels?]
  cases p.key? bare with
  | none => rfl
  | some key =>
      simp only [Option.bind_eq_bind, Option.bind_some, keyPixels?]
      split
      · cases bracketPixels? key <;> rfl
      · cases p.scale.find? fun e => e.1.toList = key <;> rfl

/-- What is claimed is what is read, with pixels. -/
theorem claimed?_eq (order : List Property) (word : List Char) :
    claimed? order word
      = (order.findSome? fun p => (p.pixels? word).map fun n => (p, n)).map
          fun (p, n) => (p, some n) := by
  rw [List.map_findSome?, claimed?]
  congr
  funext p
  rw [p.claim?_eq, Function.comp_apply, Option.map_map]
  rfl

/-- Whatever the order, a word is claimed by the property that can read it. -/
theorem claimed?_eq_classify? {order : List Property} (horder : ∀ p, p ∈ order)
    (word : List Char) : claimed? order word = (classify? word).map fun (p, n) => (p, some n) := by
  rw [claimed?_eq]
  congr 1
  refine Option.ext fun (p, n) => ?_
  rw [findSome?_pixels_eq_some_iff horder, classify?_eq_some_iff]

/-- To read a word for a property and to ask for its property come to the same: at most one property
reads pixels in it, and that one has it, whichever is asked first. No property has a word that it
reads no pixels in. -/
theorem classify_exact (word : List Char) :
    (∀ (p : Property) n, p.pixels? word = some n ↔ classify? word = some (p, n)) ∧
    (∀ (p q : Property) n m, p.pixels? word = some n → q.pixels? word = some m → p = q ∧ n = m) ∧
    (∀ order : List Property, (∀ p, p ∈ order) →
      claimed? order word = (classify? word).map fun (p, n) => (p, some n)) ∧
    (∀ (order : List Property) p, claimed? order word ≠ some (p, none)) := by
  refine ⟨fun p n => classify?_eq_some_iff.symm, fun p q n m hp hq => ?_,
    fun order horder => claimed?_eq_classify? horder word, fun order p h => ?_⟩
  · obtain rfl := Property.eq_of_pixels hp hq
    exact ⟨rfl, Option.some.inj (hp.symm.trans hq)⟩
  · rw [claimed?_eq] at h
    obtain ⟨found, -, heq⟩ := Option.map_eq_some_iff.mp h
    cases heq

theorem classify_exact_reversed :
    let word := "md:px-[1.5rem]".toList
    (∀ p, p ∈ Property.all.reverse) ∧ Property.paddingX.pixels? word = some 24 ∧
      classify? word = some (.paddingX, 24) ∧
      claimed? Property.all.reverse word = some (.paddingX, some 24) := by
  intro word
  have horder : ∀ p, p ∈ Property.all.reverse := fun p => List.mem_reverse.mpr p.mem_all
  have hpixels : Property.paddingX.pixels? word = some 24 := by decide +kernel
  have hclass := ((classify_exact word).1 .paddingX 24).mp hpixels
  exact ⟨horder, hpixels, hclass, by rw [(classify_exact word).2.2.1 _ horder, hclass]; rfl⟩

/-! ## What is written -/

/-- The modifiers in front of a token do not count. -/
theorem pixels?_modifiers {p : Property} {modifiers token : List Char}
    (htoken : p.isToken token = true) (hbracket : '[' ∉ modifiers)
    (hcolon : modifiers = [] ∨ modifiers.getLast? = some ':') :
    p.pixels? (modifiers ++ token) = p.pixels? token := by
  have hends : ∀ q : Char → Bool, q ':' = true → modifiers.getLast?.all q = true := by
    intro q hq
    rcases hcolon with rfl | hlast
    · rfl
    · rw [hlast, Option.all_some, hq]
  have hbare := (bareToken_modifiers htoken (hends (fun c => !isWhiteSpace c) rfl)).mpr
    ⟨hbracket, hends (fun c => c = ':') rfl⟩
  exact pixels?_of_bareToken hbare htoken

/-- A number of pixels that is written for a property, by the scale or in brackets, is read back for
that property, behind any modifiers without a bracket. -/
theorem classify_written (p : Property) {n : Nat} (hn : n ≤ maxPixels) {modifiers : List Char}
    (hbracket : '[' ∉ modifiers) (hcolon : modifiers = [] ∨ modifiers.getLast? = some ':') :
    ∀ token ∈ [p.token n, p.bracketToken n],
      p.pixels? (modifiers ++ token.toList) = some n ∧
      classify? (modifiers ++ token.toList) = some (p, n) := by
  have hread : ∀ token : String, p.isToken token.toList = true →
      p.pixels? token.toList = some n → p.pixels? (modifiers ++ token.toList) = some n ∧
        classify? (modifiers ++ token.toList) = some (p, n) := by
    intro token htoken hpixels
    have hbehind := (pixels?_modifiers htoken hbracket hcolon).trans hpixels
    exact ⟨hbehind, classify?_eq_some_iff.mpr hbehind⟩
  intro token hmem
  rcases List.mem_pair.mp hmem with rfl | rfl
  · exact hread _ (p.isToken_token n) (p.pixels?_token hn)
  · exact hread _ (p.isToken_bracketToken n) (p.pixels?_bracketToken hn)

theorem classify_written_greatest :
    let modifiers := "dark:group-hover:".toList
    4294967295 ≤ maxPixels ∧ '[' ∉ modifiers ∧ modifiers.getLast? = some ':' ∧
      (Property.fontWeight.token 4294967295).toList = "font-[4294967295]".toList ∧
      Property.fontWeight.pixels? (modifiers ++ "font-[4294967295]".toList) = some 4294967295 ∧
      classify? (modifiers ++ "font-[4294967295]".toList) = some (.fontWeight, 4294967295) := by
  intro modifiers
  have hbracket : '[' ∉ modifiers := by decide
  have hcolon : modifiers.getLast? = some ':' := by decide
  have hspelled : (Property.fontWeight.token 4294967295).toList = "font-[4294967295]".toList := by
    decide
  have hread := classify_written .fontWeight (n := 4294967295) (by decide) hbracket (.inr hcolon) _
    (List.mem_cons_self ..)
  rw [hspelled] at hread
  exact ⟨by decide, hbracket, hcolon, hspelled, hread⟩

end DesignTokens
