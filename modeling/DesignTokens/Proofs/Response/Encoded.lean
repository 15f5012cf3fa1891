import DesignTokens.Proofs.Record.Spec
import DesignTokens.Proofs.Response.Search
import DesignTokens.Response.Component

/-!
# Responses that hold a written component

A response with a spec and a source, written as compact JSON in a block of its
own, is read back as that spec and that source, whatever the strings hold and
whatever follows the block (`ofResponse_encoded`). If back quotes in a string
cut the block short, its body ends within that string and is no JSON, so the
search goes on with the braces of the response and finds the whole object.
-/

namespace DesignTokens

open Json Text

/-- A component as the object that a response is asked for. -/
def Component.encoded (s : Spec) (source : String) : Value :=
  .object [("spec", s.write), ("code", .string source)]

namespace Response

/-- What stands between the braces of the object. -/
def encodedMembers (s : Spec) (source : String) : List Char :=
  compactMembers [("spec", s.write), ("code", .string source)]

theorem compactChars_encoded (s : Spec) (source : String) :
    compactChars (Component.encoded s source) = '\x7b' :: (encodedMembers s source ++ ['\x7d']) :=
  rfl

/-! ## Texts that are cut short -/

theorem not_isWhiteSpace_of_isDigit {c : Char} (h : c.isDigit = true) : isWhiteSpace c = false := by
  have hzero : '0'.toNat = 48 := by decide
  have hnine : '9'.toNat = 57 := by decide
  rw [Char.isDigit_iff_toNat, hzero, hnine] at h
  simp only [isWhiteSpace, whiteSpaceRanges, List.any_cons, List.any_nil, Bool.or_false,
    Bool.or_eq_false_iff, Bool.and_eq_false_iff, decide_eq_false_iff_not]
  omega

theorem ne_of_isWhiteSpace {c d : Char} (hc : isWhiteSpace c = true) (hd : isWhiteSpace d = false) :
    c ≠ d := by
  rintro rfl
  rw [hc] at hd
  cases hd

theorem not_isDigit_of_isWhiteSpace {c : Char} (h : isWhiteSpace c = true) : c.isDigit = false := by
  by_contra hdigit
  rw [Bool.not_eq_false] at hdigit
  rw [not_isWhiteSpace_of_isDigit hdigit] at h
  cases h

theorem stray_of_isWhiteSpace {c : Char} (h : isWhiteSpace c = true) : Stray c where
  mark := by
    have hmarks : ∀ d ∈ markLexemes.map (·.1), isWhiteSpace d = false := by decide
    exact fun hmem => ne_of_isWhiteSpace h (hmarks c hmem) rfl
  quote := ne_of_isWhiteSpace h (by decide)
  digit := not_isDigit_of_isWhiteSpace h
  minus := ne_of_isWhiteSpace h (by decide)
  word := by
    have hletters : ∀ d ∈ ['n', 't', 'f'], isWhiteSpace d = false := by decide
    exact fun hmem => ne_of_isWhiteSpace h (hletters c hmem) rfl

theorem stray_backquote : Stray '\x60' := ⟨by decide, by decide, by decide, by decide, by decide⟩

theorem endsNumber_of_isWhiteSpace {c : Char} (h : isWhiteSpace c = true) : EndsNumber c where
  digit := not_isDigit_of_isWhiteSpace h
  point := ne_of_isWhiteSpace h (by decide)
  exponent := ⟨ne_of_isWhiteSpace h (by decide), ne_of_isWhiteSpace h (by decide)⟩

theorem lexemes_whiteSpace {more : List Char} {ls : List Lexeme} : ∀ {w : List Char},
    (∀ c ∈ w, isWhiteSpace c = true) → lexemes (w ++ more) = some ls → lexemes more = some ls
  | [], _, h => h
  | c :: w, hw, h => by
      have hc := hw c (List.mem_cons_self ..)
      have hrest : ∀ d ∈ w, isWhiteSpace d = true := fun d hd => hw d (List.mem_cons_of_mem c hd)
      cases hspace : isSpace c with
      | true =>
          rw [List.cons_append, lexemes_space hspace] at h
          exact lexemes_whiteSpace hrest h
      | false =>
          rw [List.cons_append, (stray_of_isWhiteSpace hc).lexemes hspace] at h
          cases h

/-- A text that has lexemes has none when it is cut in front of a back quote. -/
theorem lexemes_trim_eq_none {cs rest : List Char} {ls : List Lexeme}
    (h : lexemes (cs ++ '\x60' :: rest) = some ls) : lexemes (trim cs) = none := by
  obtain ⟨a, b, hcs, ha, hb⟩ := exists_trim cs
  rw [hcs, List.append_assoc, List.append_assoc] at h
  have hinner := lexemes_whiteSpace ha h
  cases htrim : lexemes (trim cs) with
  | none => rfl
  | some ls' =>
      -- the text would be read on behind the part, up to the back quote
      have hmore : ∃ ls, lexemes (b ++ '\x60' :: rest) = some ls := by
        cases b with
        | nil =>
            have hx : EndsNumber '\x60' := ⟨by decide, by decide, by decide⟩
            rw [List.nil_append, lexemes_append hx htrim] at hinner
            obtain ⟨later, hlater, -⟩ := Option.map_eq_some_iff.mp hinner
            exact ⟨later, hlater⟩
        | cons x b =>
            have hx := endsNumber_of_isWhiteSpace (hb x (List.mem_cons_self ..))
            rw [List.cons_append, lexemes_append hx htrim] at hinner
            obtain ⟨later, hlater, -⟩ := Option.map_eq_some_iff.mp hinner
            exact ⟨later, hlater⟩
      obtain ⟨later, hlater⟩ := hmore
      have hnone := lexemes_whiteSpace hb hlater
      rw [stray_backquote.lexemes (by decide)] at hnone
      cases hnone

theorem object?_eq_none_of_cut {cs rest : List Char} {ls : List Lexeme}
    (h : lexemes (cs ++ '\x60' :: rest) = some ls) : object? cs = none := by
  have hnone := lexemes_trim_eq_none h
  rw [object?, parseValue?, parse?, String.toList_ofList, hnone]
  rfl

/-! ## The object -/

theorem trim_object {w b : List Char} (hb : ∀ c ∈ b, isWhiteSpace c = true) :
    trim ('\x7b' :: (w ++ '\x7d' :: b)) = '\x7b' :: (w ++ ['\x7d']) := by
  have hreverse : ('\x7b' :: (w ++ '\x7d' :: b)).reverse
      = b.reverse ++ '\x7d' :: (w.reverse ++ ['\x7b']) := by simp
  have hdrop : (b.reverse ++ '\x7d' :: (w.reverse ++ ['\x7b'])).dropWhile isWhiteSpace
      = '\x7d' :: (w.reverse ++ ['\x7b']) := by
    rw [dropWhile_append_stop (by decide), List.dropWhile_eq_nil_iff.mpr, List.nil_append]
    exact fun c hc => hb c (List.mem_reverse.mp hc)
  rw [trim, trimEnd, dropEndWhile, List.dropWhile_cons_of_neg (by decide), hreverse, hdrop]
  simp

/-- The names that a written component has members of. -/
def encodedNames : List String := ["spec", "code"] ++ Spec.memberNames

theorem printable_encodedMembers {P : String → Prop} {s : Spec} {source : String}
    (hnames : ∀ n ∈ encodedNames, P n) (htexts : ∀ x ∈ s.texts, P x) (hsource : P source) :
    ∀ m ∈ [("spec", s.write), ("code", .string source)], P m.1 ∧ Printable P m.2 := by
  intro m hm
  simp only [List.mem_cons, List.not_mem_nil, or_false] at hm
  rcases hm with rfl | rfl
  · refine ⟨hnames "spec" (by decide), Spec.printable (fun n hn => ?_) htexts⟩
    exact hnames n (List.mem_append_right _ hn)
  · exact ⟨hnames "code" (by decide), .string hsource⟩

theorem printable_anyMembers (s : Spec) (source : String) :
    ∀ m ∈ [("spec", s.write), ("code", .string source)], True ∧ Printable (fun _ => True) m.2 :=
  printable_encodedMembers (fun _ _ => trivial) (fun _ _ => trivial) trivial

theorem printable_encoded (s : Spec) (source : String) :
    Printable (fun _ => True) (Component.encoded s source) :=
  .object (fun _ _ => trivial) fun m hm => (printable_anyMembers s source m hm).2

theorem value?_encoded (s : Spec) (source : String) :
    value? maxDepth (document (Component.encoded s source))
      = some (Component.encoded s.settled source) := by
  have hnames : ["spec", "code"].Nodup := by decide
  have hmembers : memberValues? 126 (memberDocuments [("spec", s.write), ("code", .string source)])
      = some [("spec", s.settled.write), ("code", .string source)] := by
    simp only [memberDocuments, memberValues?, Spec.value?_write 123 s]
    rfl
  rw [Component.encoded, document, maxDepth, value?, hmembers, Option.map_some, lastWins_of_nodup]
  · rfl
  · exact hnames

theorem object?_encoded (s : Spec) (source : String) {b : List Char}
    (hb : ∀ c ∈ b, isWhiteSpace c = true) :
    object? (compactChars (Component.encoded s source) ++ b)
      = some (Component.encoded s.settled source) := by
  have htrim : trim (compactChars (Component.encoded s source) ++ b)
      = compactChars (Component.encoded s source) := by
    rw [compactChars_encoded, List.cons_append, List.append_assoc, List.singleton_append,
      trim_object hb]
  have hparse := parse?_compact (printable_encoded s source)
  rw [compact] at hparse
  rw [object?, htrim, parseValue?, hparse, Option.bind_some, value?_encoded]
  rfl

theorem component?_encoded {s : Spec} (hs : s.Distinct) (source : String) (response : List Char) :
    component? (Component.encoded s source) response
      = if isBlankText source then none
        else some ⟨s, String.ofList (unifyLineEnds source.toList)⟩ := by
  have hspec : specPart (Component.encoded s source) = s.write := rfl
  have hmember : source? (Component.encoded s source) response = some source := rfl
  rw [component?, hspec, Spec.read_write hs, hmember]
  rfl

/-! ## The response -/

/-- A text as a block of JSON. -/
def fenced (text : List Char) : List Char := jsonFence ++ (text ++ '\n' :: fence)

theorem firstComponent_of_found {response : List Char} {s : Strategy} {ss : List Strategy}
    {found : Value} {c : Component} (hfound : s.object? response = some found)
    (hc : component? found response = some c) :
    firstComponent response (s :: ss) = .ok c := by
  rw [firstComponent, Strategy.attempt, hfound]
  simp only [hc]

theorem firstComponent_of_not_found {response : List Char} {s : Strategy} {ss : List Strategy}
    {c : Component} (hfound : s.object? response = none) :
    firstComponent response (s :: ss) = .ok c ↔ firstComponent response ss = .ok c := by
  rw [firstComponent, Strategy.attempt, hfound]
  cases firstComponent response ss <;> simp [Except.mapError]

theorem firstComponent_singleton {response : List Char} {s : Strategy} {c : Component} :
    firstComponent response [s] = .ok c ↔
      ∃ found, s.object? response = some found ∧ component? found response = some c := by
  rw [firstComponent, Strategy.attempt]
  cases s.object? response with
  | none => simp [firstComponent, Except.mapError]
  | some found =>
      cases hc : component? found response with
      | none => simp [hc, firstComponent, Except.mapError]
      | some d => simp [hc]

/-- The body of a block is the text with its line end, or the text is cut in front of a back
quote. -/
theorem exists_jsonBlock {before : List Char} (hquote : '\x60' ∉ before) (text behind : List Char) :
    ∃ body, jsonBlock? (before ++ (fenced text ++ behind)) = some body ∧
      (body = text ++ ['\n'] ∨ ∃ rest, text = body ++ '\x60' :: rest) := by
  obtain ⟨body, hbody, hcut⟩ := exists_untilFence behind (text ++ ['\n'])
  have hresponse : fenced text ++ behind
      = jsonFence ++ ((text ++ ['\n']) ++ (fence ++ behind)) := by
    simp [fenced]
  refine ⟨body, ?_, hcut.imp_right ?_⟩
  · rw [jsonBlock?, hresponse]
    exact jsonBlock?_append hquote hbody
  · rintro ⟨rest, hrest⟩
    rcases List.eq_nil_or_concat rest with rfl | ⟨rest, x, rfl⟩
    · have hlast := List.append_inj_right' hrest rfl
      cases hlast
    · rw [List.concat_eq_append, ← List.cons_append, ← List.append_assoc] at hrest
      exact ⟨rest, List.append_inj_left' hrest rfl⟩

theorem balancedObject?_fenced {before w : List Char} (hbrace : '\x7b' ∉ before) (hw : Passed w)
    (behind : List Char) :
    balancedObject? (before ++ (fenced ('\x7b' :: (w ++ ['\x7d'])) ++ behind))
      = some ('\x7b' :: (w ++ ['\x7d'])) := by
  have hresponse : before ++ (fenced ('\x7b' :: (w ++ ['\x7d'])) ++ behind)
      = (before ++ jsonFence) ++ '\x7b' :: (w ++ '\x7d' :: ('\n' :: fence ++ behind)) := by
    simp [fenced]
  have hfirst : '\x7b' ∉ before ++ jsonFence := by
    rw [List.mem_append, not_or]
    exact ⟨hbrace, by decide⟩
  rw [hresponse]
  exact balancedObject?_append hfirst hw _

/-- A property of all compact texts is one of what stands between the braces of the object. -/
theorem joined_encodedMembers {R : List Char → Prop} (hR : Joins (fun _ => True) id fun w _ => R w)
    (s : Spec) (source : String) : R (encodedMembers s source) :=
  hR.members_of_printable (printable_anyMembers s source)

theorem passed_encodedMembers (s : Spec) (source : String) : Passed (encodedMembers s source) :=
  joined_encodedMembers (joins_passed _) s source

/-- The object is found in the block, or where the block is cut short, between its braces. -/
theorem firstComponent_encoded {s : Spec} (hs : s.Distinct) {source : String}
    (hsource : isBlankText source = false) {before : List Char} (hbrace : '\x7b' ∉ before)
    (hquote : '\x60' ∉ before) (behind : List Char) :
    firstComponent (before ++ (fenced (compactChars (Component.encoded s source)) ++ behind))
        Strategy.all
      = .ok ⟨s, String.ofList (unifyLineEnds source.toList)⟩ := by
  have hcomponent := component?_encoded hs source
    (before ++ (fenced (compactChars (Component.encoded s source)) ++ behind))
  rw [if_neg (by simp [hsource])] at hcomponent
  obtain ⟨body, hblock, hbody⟩ :=
    exists_jsonBlock hquote (compactChars (Component.encoded s source)) behind
  have hfenced : Strategy.object?
      (before ++ (fenced (compactChars (Component.encoded s source)) ++ behind)) .fencedJson
      = object? body := by
    rw [Strategy.object?, Strategy.candidates, hblock, Option.toList_some, List.findSome?_singleton]
  rcases hbody with rfl | ⟨rest, hrest⟩
  · refine firstComponent_of_found ?_ hcomponent
    rw [hfenced]
    rw [object?_encoded s source (by decide), hs.settled_eq]
  · -- the body ends within a string, so the braces are looked at
    have hlexemes := lexemes_compact (printable_encoded s source)
    rw [hrest] at hlexemes
    have hbare : Strategy.object?
        (before ++ (fenced (compactChars (Component.encoded s source)) ++ behind)) .bareObject
        = object? (compactChars (Component.encoded s source)) := by
      rw [Strategy.object?, Strategy.candidates, compactChars_encoded,
        balancedObject?_fenced hbrace (passed_encodedMembers s source), Option.toList_some,
        List.findSome?_singleton]
    refine (firstComponent_of_not_found ?_).mpr (firstComponent_of_found ?_ hcomponent)
    · rw [hfenced, object?_eq_none_of_cut hlexemes]
    · have hwhole := object?_encoded s source (b := []) (by decide)
      rwa [List.append_nil, hs.settled_eq, ← hbare] at hwhole

end Response

/-- A spec and a source that are written into a block of JSON are read back from the response, the
line ends of the source unified. -/
theorem Component.ofResponse_encoded {s : Spec} (hs : s.Distinct) {source : String}
    (hsource : isBlankText source = false) {before : String} (hbrace : '\x7b' ∉ before.toList)
    (hquote : '\x60' ∉ before.toList) (behind : String) :
    Component.ofResponse (before ++ "\x60\x60\x60json\n" ++ compact (Component.encoded s source)
        ++ "\n\x60\x60\x60" ++ behind)
      = .ok ⟨s, String.ofList (unifyLineEnds source.toList)⟩ := by
  have htext : (before ++ "\x60\x60\x60json\n" ++ compact (Component.encoded s source)
      ++ "\n\x60\x60\x60" ++ behind).toList
      = before.toList ++ (Response.fenced (compactChars (Component.encoded s source))
        ++ behind.toList) := by
    have hopen : "\x60\x60\x60json\n".toList = Response.jsonFence := by decide
    have hclose : "\n\x60\x60\x60".toList = '\n' :: Response.fence := by decide
    simp only [String.toList_append, hopen, hclose, compact, String.toList_ofList, Response.fenced,
      List.append_assoc]
  rw [Component.ofResponse, htext,
    Response.firstComponent_encoded hs hsource hbrace hquote behind.toList]
  rfl

/-- A source that holds a block of JSON itself, with back quotes, braces and quotes in it. -/
def quotingSource : String :=
  "// \x7b\r\n\x60\x60\x60json\n\x7b\"spec\": \x7b\x7d, \"code\": \"x\"\x7d\n\x60\x60\x60\n"

def quotingSpec : Spec :=
  { name := "\x7d\x60\x60\x60", variants := [("tone", ["\"", "\\"]), ("size", [])] }

theorem Component.ofResponse_encoded_quoting :
    Component.ofResponse ("Here it is:\n" ++ "\x60\x60\x60json\n"
        ++ compact (Component.encoded quotingSpec quotingSource) ++ "\n\x60\x60\x60" ++ " \x7b\x60")
      = .ok ⟨quotingSpec, String.ofList (unifyLineEnds quotingSource.toList)⟩ :=
  Component.ofResponse_encoded (by rw [Spec.Distinct]; decide) (by decide) (by decide) (by decide) _

end DesignTokens
