import DesignTokens.Proofs.Response.Encoded
import DesignTokens.Proofs.Response.Marks

/-!
# A trailing comma

A written component with a comma behind its last member is no JSON
(`object?_trailed`), so it is only read after the repairs, from the body of its
block or from its outermost braces (`firstComponent_trailed`). Without curly
quotation marks the repairs take away that comma and tidy the strings. With
them, whatever is found has none (`straight_of_firstComponent`). So the
component comes back as it was written exactly if its strings are sound
(`ofResponse_withComma`).
-/

namespace DesignTokens

open Json Text

namespace Response

/-- A written component with a comma behind its last member. -/
def trailed (s : Spec) (source : String) : List Char :=
  '\x7b' :: (encodedMembers s source ++ [',', '\x7d'])

/-! ## No JSON -/

theorem trim_newline (cs : List Char) : trim (cs ++ ['\n']) = trim cs := by
  have hend : ∀ cs : List Char, trimEnd (cs ++ ['\n']) = trimEnd cs := by
    intro cs
    rw [trimEnd, dropEndWhile, List.reverse_append, List.reverse_singleton, List.singleton_append,
      List.dropWhile_cons_of_pos (by decide)]
    rfl
  rw [trim, List.dropWhile_append]
  split
  case isTrue hempty =>
    rw [trim, List.isEmpty_iff.mp hempty]
    rfl
  case isFalse => exact hend _

theorem object?_newline (cs : List Char) : object? (cs ++ ['\n']) = object? cs := by
  rw [object?, trim_newline, object?]

/-- No object ends behind a comma. -/
theorem ofLexemes?_comma (ls : List Lexeme) :
    ofLexemes? (ls ++ [.comma, .closeObject]) = none := by
  have hend : ∀ r : Reading, [Lexeme.comma, .closeObject].foldlM Reading.step r = none := by
    intro r
    cases r with
    | behind d frames =>
        cases frames with
        | nil => rfl
        | cons f frames => cases f <;> rfl
    | value | firstItem | firstName | name | colon => rfl
  rw [ofLexemes?, List.foldlM_append]
  simp only [hend, Option.bind_eq_bind, Option.bind_fun_none, Option.bind_none]

theorem lexemes_trailed (s : Spec) (source : String) :
    ∃ ls, lexemes (trailed s source) = some (ls ++ [.comma, .closeObject]) := by
  have hmembers : lexemes (encodedMembers s source)
      = some (memberLexemes [("spec", s.write), ("code", .string source)]) := by
    refine lexemes_members fun m hm => ?_
    exact lexemes_compact (printable_anyMembers s source m hm).2
  refine ⟨.openObject :: memberLexemes [("spec", s.write), ("code", .string source)], ?_⟩
  rw [trailed, lexemes_mark (by decide : ('\x7b', Lexeme.openObject) ∈ markLexemes),
    lexemes_append endsNumber_comma hmembers]
  rfl

theorem object?_trailed (s : Spec) (source : String) {b : List Char}
    (hb : ∀ c ∈ b, isWhiteSpace c = true) : object? (trailed s source ++ b) = none := by
  obtain ⟨ls, hls⟩ := lexemes_trailed s source
  have htrim : trim (trailed s source ++ b) = trailed s source := by
    have hobject := trim_object (w := encodedMembers s source ++ [',']) hb
    simpa [trailed] using hobject
  rw [object?, htrim, parseValue?, parse?, String.toList_ofList, hls, Option.bind_some,
    ofLexemes?_comma]
  rfl

/-! ## The candidates -/

theorem exists_body (s : Spec) (source : String) :
    ∃ body, jsonBlock? (fenced (trailed s source)) = some body ∧
      (body = trailed s source ++ ['\n'] ∨
        ∃ rest, trailed s source = body ++ '\x60' :: rest) := by
  have hquote : '\x60' ∉ ([] : List Char) := List.not_mem_nil
  have hbody := exists_jsonBlock hquote (trailed s source) []
  rwa [List.nil_append, List.append_nil] at hbody

theorem balancedObject?_trailed (s : Spec) (source : String) :
    balancedObject? (fenced (trailed s source)) = some (trailed s source) := by
  have hcomma : Passed [','] := passed_char (by decide) (by decide) (by decide)
  have hbrace : '\x7b' ∉ ([] : List Char) := List.not_mem_nil
  have hobject := balancedObject?_fenced hbrace ((passed_encodedMembers s source).append hcomma) []
  simpa [trailed] using hobject

theorem outermostBraces?_trailed (s : Spec) (source : String) :
    outermostBraces? (fenced (trailed s source)) = some (trailed s source) := by
  have hbefore : '\x7b' ∉ jsonFence := by decide
  have hmore : '\x7d' ∉ '\n' :: fence := by decide
  have hobject := outermostBraces?_append hbefore hmore (encodedMembers s source ++ [','])
  simpa [trailed, fenced] using hobject

theorem object?_cleaned {s : Spec} {source : String} {body : List Char}
    (hbody : jsonBlock? (fenced (trailed s source)) = some body) :
    Strategy.object? (fenced (trailed s source)) .cleaned
      = (object? (repaired body)).or (object? (repaired (trailed s source))) := by
  rw [Strategy.object?, Strategy.candidates, hbody, balancedObject?_trailed,
    outermostBraces?_trailed]
  simp only [List.filterMap_cons, List.filterMap_nil, id, List.map_cons, List.map_nil,
    List.findSome?_cons, List.findSome?_nil]
  cases object? (repaired body) <;> cases object? (repaired (trailed s source)) <;> rfl

/-- A component is only found after the repairs. -/
theorem firstComponent_trailed {s : Spec} {source : String} {c : Component} :
    firstComponent (fenced (trailed s source)) Strategy.all = .ok c ↔
      ∃ found, Strategy.object? (fenced (trailed s source)) .cleaned = some found ∧
        component? found (fenced (trailed s source)) = some c := by
  have hwhole : object? (trailed s source) = none := by
    have := object?_trailed s source (b := []) nofun
    rwa [List.append_nil] at this
  have hfenced : Strategy.object? (fenced (trailed s source)) .fencedJson = none := by
    obtain ⟨body, hbody, hcut⟩ := exists_body s source
    rw [Strategy.object?, Strategy.candidates, hbody, Option.toList_some,
      List.findSome?_singleton]
    rcases hcut with rfl | ⟨rest, hrest⟩
    · exact object?_trailed s source (by decide)
    · obtain ⟨ls, hls⟩ := lexemes_trailed s source
      rw [hrest] at hls
      exact object?_eq_none_of_cut hls
  have hbare : Strategy.object? (fenced (trailed s source)) .bareObject = none := by
    rw [Strategy.object?, Strategy.candidates, balancedObject?_trailed, Option.toList_some,
      List.findSome?_singleton, hwhole]
  rw [Strategy.all, firstComponent_of_not_found hfenced, firstComponent_of_not_found hbare,
    firstComponent_singleton]

/-! ## Strings without curly marks -/

theorem wellEscaped_trailed {P : Char → Prop} (hascii : ∀ c : Char, c.toNat < 0x80 → P c)
    {s : Spec} {source : String} (htexts : ∀ x ∈ source :: s.texts, ∀ c ∈ x.toList, P c) :
    WellEscaped P (trailed s source) := by
  have hnames : ∀ n ∈ encodedNames, ∀ c ∈ n.toList, P c := by
    have hlt : ∀ n ∈ encodedNames, ∀ c ∈ n.toList, c.toNat < 0x80 := by decide
    exact fun n hn c hc => hascii c (hlt n hn c hc)
  obtain ⟨hsource, hspec⟩ := List.forall_mem_cons.mp htexts
  have hmembers : WellEscaped P (encodedMembers s source) :=
    (joins_wellEscaped hascii).members_of_printable (printable_encodedMembers hnames hspec hsource)
  have hend : WellEscaped P [',', '\x7d'] :=
    .char (by decide) (hascii _ (by decide)) (.char (by decide) (hascii _ (by decide)) .nil)
  exact .char (by decide) (hascii _ (by decide)) (hmembers.append hend)

theorem oneLine_trailed (s : Spec) (source : String) : OneLine (trailed s source) := by
  have hmembers := joined_encodedMembers (joins_oneLine _) s source
  exact (OneLine.append (w := ['\x7b']) ⟨by decide, by decide⟩ hmembers).append
    ⟨by decide, by decide⟩

theorem oneLine_of_cut {s : Spec} {source : String} {body rest : List Char}
    (hcut : trailed s source = body ++ '\x60' :: rest) : OneLine body ∧ body ≠ [] := by
  have hwhole := oneLine_trailed s source
  simp only [OneLine, hcut, List.mem_append, not_or] at hwhole
  refine ⟨⟨hwhole.1.1, hwhole.2.1⟩, ?_⟩
  rintro rfl
  exact absurd (List.cons.inj hcut).1 (by decide)

theorem uncommented_trailed (s : Spec) (source : String) : Uncommented (trailed s source) := by
  have hmembers := joined_encodedMembers (joins_uncommented _) s source
  exact ((uncommented_of_forall (w := ['\x7b']) (by decide)).append hmembers).append
    (uncommented_of_forall (by decide))

theorem tidied_encodedMembers (s : Spec) (source : String) :
    Tidied (encodedMembers s source) (encodedMembers (s.mapTexts tidy) (tidy source)) := by
  have hnames : ∀ n ∈ encodedNames, tidy n = n := by decide
  have hmembers := (joins_tidied fun _ => True).members_of_printable (printable_anyMembers s source)
  have hspec := Spec.mapStrings_write (fun n hn => hnames n (List.mem_append_right _ hn)) s
  simp only [mapMembers, mapStrings, hspec, hnames "spec" (by decide), hnames "code" (by decide)]
    at hmembers
  exact hmembers

/-- The commas are dropped that only spaces part from a closing bracket, in strings and behind the
last member. -/
theorem dropTrailingCommas_trailed (s : Spec) (source : String) :
    dropTrailingCommas (trailed s source)
      = compactChars (Component.encoded (s.mapTexts tidy) (tidy source)) := by
  rw [trailed, dropTrailingCommas_of_ne (by decide), (tidied_encodedMembers s source).drop]
  rfl

section

variable {s : Spec} {source : String} (hmarks : ∀ x ∈ source :: s.texts, Straight x)

include hmarks

theorem map_straight_trailed : (trailed s source).map straight = trailed s source := by
  have hascii : ∀ c : Char, c.toNat < 0x80 → straight c = c := fun c => straight_of_lt
  have hchars := (wellEscaped_trailed hascii hmarks).forall_mem hascii
  exact (List.map_congr_left hchars).trans (List.map_id _)

theorem repaired_trailed {b : List Char} (hb : b = [] ∨ b = ['\n']) :
    repaired (trailed s source ++ b)
      = compactChars (Component.encoded (s.mapTexts tidy) (tidy source)) ++ ['\n'] := by
  rw [repaired_eq (oneLine_trailed s source) (List.cons_ne_nil _ _) hb, map_straight_trailed hmarks,
    (uncommented_trailed s source).eq_self, dropTrailingCommas_newline, dropTrailingCommas_trailed]

/-- Also the repairs do not help a body that is cut short. -/
theorem object?_repaired_cut {body rest : List Char}
    (hcut : trailed s source = body ++ '\x60' :: rest) : object? (repaired body) = none := by
  obtain ⟨hline, hne⟩ := oneLine_of_cut hcut
  -- a back quote is left alone by each repair, so the repaired body is cut short as well
  have hmap : body.map straight = body := by
    have hwhole := map_straight_trailed hmarks
    rw [hcut, List.map_append] at hwhole
    exact List.append_inj_left hwhole (List.length_map _)
  have hcomment : dropComment .outside body = body := by
    have hwhole := (uncommented_trailed s source).eq_self
    rw [hcut] at hwhole
    exact dropComment_left hwhole
  have hrepaired : repaired body = dropTrailingCommas body ++ ['\n'] := by
    have heq := repaired_eq hline hne (.inl rfl)
    rwa [List.append_nil, hmap, hcomment, dropTrailingCommas_newline] at heq
  have hlexemes : lexemes (dropTrailingCommas body ++ '\x60' :: dropTrailingCommas rest)
      = some (valueLexemes (Component.encoded (s.mapTexts tidy) (tidy source))) := by
    have hsolid : Solid '\x60' := ⟨by decide, by decide⟩
    rw [← dropTrailingCommas_of_ne (by decide),
      ← dropTrailingCommas_append (hsolid.closesNext rest), ← hcut, dropTrailingCommas_trailed]
    exact lexemes_compact (printable_encoded _ _)
  rw [hrepaired, object?_newline]
  exact object?_eq_none_of_cut hlexemes

/-- The repairs find the component with its strings tidied. -/
theorem object?_cleaned_eq :
    Strategy.object? (fenced (trailed s source)) .cleaned
      = some (Component.encoded (s.mapTexts tidy).settled (tidy source)) := by
  have hwhole := repaired_trailed hmarks (b := []) (.inl rfl)
  rw [List.append_nil] at hwhole
  obtain ⟨body, hbody, hcut⟩ := exists_body s source
  rw [object?_cleaned hbody, hwhole, object?_encoded _ _ (by decide)]
  rcases hcut with rfl | ⟨rest, hrest⟩
  · rw [repaired_trailed hmarks (.inr rfl), object?_encoded _ _ (by decide), Option.some_or]
  · rw [object?_repaired_cut hmarks hrest, Option.none_or]

end

/-! ## Strings with curly marks -/

theorem allStrings_cleaned {s : Spec} {source : String} {found : Value}
    (h : Strategy.object? (fenced (trailed s source)) .cleaned = some found) :
    AllStrings Straight found := by
  have hescaped : WellEscaped (fun _ => True) (trailed s source) :=
    wellEscaped_trailed (fun _ _ => trivial) fun _ _ _ _ => trivial
  have hline := oneLine_trailed s source
  have hne : trailed s source ≠ [] := List.cons_ne_nil _ _
  obtain ⟨body, hbody, hcut⟩ := exists_body s source
  rw [object?_cleaned hbody, Option.or_eq_some_iff] at h
  rcases h with h | ⟨-, h⟩
  · rcases hcut with rfl | ⟨rest, hrest⟩
    · exact allStrings_of_object hescaped hline hne (.inr rfl) h
    · obtain ⟨hline, hne⟩ := oneLine_of_cut hrest
      rw [hrest] at hescaped
      have hleft := hescaped.left (by decide)
      rw [← List.append_nil body] at h
      exact allStrings_of_object hleft hline hne (.inl rfl) h
  · rw [← List.append_nil (trailed s source)] at h
    exact allStrings_of_object hescaped hline hne (.inl rfl) h

/-- The response has no block but that of JSON. -/
theorem fencedBody?_trailed (s : Spec) (source : String) :
    fencedBody? sourceLanguages (fenced (trailed s source)) = none := by
  have hclose : Obstructs '\x7d' := ⟨by decide, by decide, by decide, by decide⟩
  have hline : OneLine ('\x7b' :: (encodedMembers s source ++ [','])) := by
    have hmembers := joined_encodedMembers (joins_oneLine _) s source
    exact (OneLine.append (w := ['\x7b']) ⟨by decide, by decide⟩ hmembers).append
      ⟨by decide, by decide⟩
  have htext : fenced (trailed s source)
      = jsonFence ++ ('\x7b' :: (encodedMembers s source ++ [',']) ++ '\x7d' :: '\n' :: fence) := by
    simp [fenced, trailed]
  obtain ⟨body, hbody, -⟩ := exists_untilFence []
    ('\x7b' :: (encodedMembers s source ++ [',']) ++ ['\x7d', '\n'])
  have hinside : untilFence?
      ('\x7b' :: (encodedMembers s source ++ [',']) ++ '\x7d' :: '\n' :: fence)
      = some body := by
    simpa using hbody
  obtain ⟨length, hblocks⟩ := fencedBlocks_jsonFence hclose hline hinside
  have hlanguage :
      sourceLanguages.contains (String.ofList (lowered ['j', 's', 'o', 'n'])) = false := by
    decide
  rw [htext, fencedBody?, hblocks]
  simp only [List.find?_cons, hlanguage, List.find?_nil, Option.map_none]

theorem straight_of_stringMember {v : Value} {name x : String} (hv : AllStrings Straight v)
    (h : stringMember? v name = some x) : Straight x := by
  rw [stringMember?] at h
  split at h
  case h_1 y hmember =>
    cases h
    cases hv.member hmember with
    | string hx => exact hx
  case h_2 => cases h

theorem allStrings_specPart {P : String → Prop} {v : Value} (hv : AllStrings P v) :
    AllStrings P (specPart v) := by
  rw [specPart]
  split
  case h_1 members hmember => exact hv.member hmember
  case h_2 => exact hv

/-- What is found in the response, if anything is, has no curly quotation marks. -/
theorem straight_of_firstComponent {s : Spec} {source : String} {c : Component}
    (h : firstComponent (fenced (trailed s source)) Strategy.all = .ok c) :
    ∀ x ∈ c.source :: c.spec.texts, Straight x := by
  obtain ⟨found, hfound, hc⟩ := firstComponent_trailed.mp h
  have hstrings := allStrings_cleaned hfound
  obtain ⟨spec, hspec, hc⟩ := Option.bind_eq_some_iff.mp hc
  obtain ⟨text, htext, hc⟩ := Option.bind_eq_some_iff.mp hc
  split at hc
  case isTrue => cases hc
  case isFalse =>
    cases hc
    have hempty : Straight "" := fun c hc => absurd hc List.not_mem_nil
    -- the only block is the one of JSON, so the source is a string of what was found
    rw [source?, fencedBody?_trailed, Option.map_none, Option.or_none] at htext
    obtain ⟨name, -, hname⟩ := List.exists_of_findSome?_eq_some htext
    refine List.forall_mem_cons.mpr ⟨fun c hc => ?_, ?_⟩
    · rw [String.toList_ofList] at hc
      by_cases hreturn : c = '\r'
      · subst hreturn
        decide
      · exact straight_of_stringMember hstrings hname c ((mem_unifyLineEnds hreturn).mp hc)
    · exact Spec.texts_of_read (allStrings_specPart hstrings).document hempty hspec

/-! ## What is found -/

/-- Without curly marks the component is found with its strings tidied. -/
theorem firstComponent_trailed_straight {s : Spec} {source : String}
    (hsource : isBlankText source = false) (hmarks : ∀ x ∈ source :: s.texts, Straight x) :
    firstComponent (fenced (trailed s source)) Strategy.all
      = .ok ⟨(s.mapTexts tidy).settled,
          String.ofList (unifyLineEnds (tidy source).toList)⟩ := by
  refine firstComponent_trailed.mpr ⟨_, object?_cleaned_eq hmarks, ?_⟩
  rw [component?_encoded (Spec.distinct_settled _), isBlankText_tidy, if_neg (by simp [hsource])]

/-- The component is found as it was written exactly if the repairs find nothing in its strings. -/
theorem firstComponent_trailed_iff {s : Spec} (hs : s.Distinct) {source : String}
    (hsource : isBlankText source = false) :
    firstComponent (fenced (trailed s source)) Strategy.all
        = .ok ⟨s, String.ofList (unifyLineEnds source.toList)⟩ ↔
      ∀ x ∈ source :: s.texts, Sound x := by
  constructor
  · intro h
    -- what comes back has no curly marks, and it is what was written
    have hmarks : ∀ x ∈ source :: s.texts, Straight x := by
      obtain ⟨hunified, htexts⟩ := List.forall_mem_cons.mp (straight_of_firstComponent h)
      refine List.forall_mem_cons.mpr ⟨fun c hc => ?_, htexts⟩
      by_cases hreturn : c = '\r'
      · subst hreturn
        decide
      · refine hunified c ?_
        rw [String.toList_ofList]
        exact (mem_unifyLineEnds hreturn).mpr hc
    rw [firstComponent_trailed_straight hsource hmarks] at h
    obtain ⟨hspec, hunified⟩ := Component.mk.inj (Except.ok.inj h)
    have htexts := Spec.eq_self_of_settled hspec
    rw [String.ofList_inj, tidy, String.toList_ofList] at hunified
    -- no comma is lost, as line ends have none
    have hcount : (tidyChars source.toList).count ',' = source.toList.count ',' := by
      have hreturn : ',' ≠ '\r' := by decide
      rw [← count_unifyLineEnds hreturn, hunified, count_unifyLineEnds hreturn]
    have htidy := tidy_eq_self_iff.mpr (tidyChars_eq_self_of_count hcount)
    have hkept : ∀ x ∈ source :: s.texts, tidy x = x := List.forall_mem_cons.mpr ⟨htidy, htexts⟩
    exact fun x hx => sound_iff.mpr ⟨hmarks x hx, hkept x hx⟩
  · intro h
    have hmarks : ∀ x ∈ source :: s.texts, Straight x := fun x hx => (sound_iff.mp (h x hx)).1
    obtain ⟨hkept, htexts⟩ := List.forall_mem_cons.mp fun x hx => (sound_iff.mp (h x hx)).2
    rw [firstComponent_trailed_straight hsource hmarks, hkept, Spec.mapTexts_eq_self_iff.mpr htexts,
      hs.settled_eq]

/-- The text with a comma in front of its last character. -/
def withComma (text : String) : String :=
  String.ofList (text.toList.dropLast ++ ',' :: text.toList.getLast?.toList)

/-- A response that is the text in a block of JSON. -/
def inFence (text : String) : String := "\x60\x60\x60json\n" ++ text ++ "\n\x60\x60\x60"

theorem toList_inFence (text : String) : (inFence text).toList = fenced text.toList := by
  have hopen : "\x60\x60\x60json\n".toList = jsonFence := by decide
  have hclose : "\n\x60\x60\x60".toList = '\n' :: fence := by decide
  simp only [inFence, String.toList_append, hopen, hclose, fenced, List.append_assoc]

theorem toList_withComma (s : Spec) (source : String) :
    (withComma (compact (Component.encoded s source))).toList = trailed s source := by
  have htext : (compact (Component.encoded s source)).toList
      = ('\x7b' :: encodedMembers s source) ++ ['\x7d'] := by
    rw [compact, String.toList_ofList, compactChars_encoded]
    rfl
  rw [withComma, String.toList_ofList, htext, List.dropLast_concat, List.getLast?_concat]
  simp [trailed]

theorem ofResponse_inFence {s : Spec} (hs : s.Distinct) {source : String}
    (hsource : isBlankText source = false) :
    Component.ofResponse (inFence (compact (Component.encoded s source)))
      = .ok ⟨s, String.ofList (unifyLineEnds source.toList)⟩ := by
  have hbrace : '\x7b' ∉ ([] : List Char) := List.not_mem_nil
  have hquote : '\x60' ∉ ([] : List Char) := List.not_mem_nil
  have hfound := firstComponent_encoded hs hsource hbrace hquote []
  rw [List.nil_append, List.append_nil] at hfound
  rw [Component.ofResponse, toList_inFence, compact, String.toList_ofList, hfound]
  rfl

theorem ofResponse_withComma_iff {s : Spec} {source : String} {c : Component} :
    Component.ofResponse (inFence (withComma (compact (Component.encoded s source)))) = .ok c ↔
      firstComponent (fenced (trailed s source)) Strategy.all = .ok c := by
  rw [Component.ofResponse, toList_inFence, toList_withComma]
  cases firstComponent (fenced (trailed s source)) Strategy.all <;> simp [Except.mapError]

end Response

open Response

/-- A component with a comma behind its last member is read with its strings tidied, if they have no
curly quotation marks. -/
theorem Component.ofResponse_withComma_straight {s : Spec} {source : String}
    (hsource : isBlankText source = false) (hmarks : ∀ x ∈ source :: s.texts, Straight x) :
    Component.ofResponse (inFence (withComma (compact (Component.encoded s source))))
      = .ok ⟨(s.mapTexts tidy).settled, String.ofList (unifyLineEnds (tidy source).toList)⟩ :=
  ofResponse_withComma_iff.mpr (firstComponent_trailed_straight hsource hmarks)

/-- A written component is read back from a response that is nothing but its block. With a comma
behind its last member the same component is read exactly if its strings have no curly quotation
mark and no comma that only spaces part from a closing bracket. -/
theorem Component.ofResponse_withComma {s : Spec} (hs : s.Distinct) {source : String}
    (hsource : isBlankText source = false) :
    Component.ofResponse (inFence (compact (Component.encoded s source)))
        = .ok ⟨s, String.ofList (unifyLineEnds source.toList)⟩ ∧
      (Component.ofResponse (inFence (withComma (compact (Component.encoded s source))))
          = Component.ofResponse (inFence (compact (Component.encoded s source))) ↔
        ∀ x ∈ source :: s.texts, Sound x) := by
  refine ⟨ofResponse_inFence hs hsource, ?_⟩
  rw [ofResponse_inFence hs hsource, ofResponse_withComma_iff]
  exact firstComponent_trailed_iff hs hsource

/-- Commas, brackets and slashes that the repairs leave alone. -/
def soundSource : String := "f([1, 2]); // , \x7b\"a\", b\x7d\n"

def soundSpec : Spec := { name := ",", variants := [("size", ["[,", "]"])] }

theorem Component.ofResponse_withComma_sound :
    Component.ofResponse (inFence (withComma (compact (Component.encoded soundSpec soundSource))))
      = .ok ⟨soundSpec, soundSource⟩ := by
  have hdistinct : soundSpec.Distinct := by
    rw [Spec.Distinct]
    decide
  have hsound : ∀ x ∈ soundSource :: soundSpec.texts, Sound x := by
    have hkept : ∀ x ∈ soundSource :: soundSpec.texts,
        (∀ c ∈ x.toList, straight c = c) ∧ tidy x = x := by decide
    exact fun x hx => sound_iff.mpr (hkept x hx)
  have hblank : isBlankText soundSource = false := by decide
  obtain ⟨hplain, hcomma⟩ := Component.ofResponse_withComma hdistinct hblank
  rw [hcomma.mpr hsound, hplain]
  decide

/-- A call whose list has a trailing comma. -/
def commaSource : String := "f([1,])"

/-- The comma in the source is lost with the one behind the last member. -/
theorem Component.not_ofResponse_withComma :
    ¬∀ (s : Spec) (source : String), s.Distinct → isBlankText source = false →
      Component.ofResponse (inFence (withComma (compact (Component.encoded s source))))
        = Component.ofResponse (inFence (compact (Component.encoded s source))) := by
  intro h
  have hdistinct : ({ name := "List" } : Spec).Distinct := by
    rw [Spec.Distinct]
    decide
  have hblank : isBlankText commaSource = false := by decide
  have hmarks : ∀ x ∈ commaSource :: ({ name := "List" } : Spec).texts, Straight x := by
    have hascii : ∀ x ∈ commaSource :: ({ name := "List" } : Spec).texts,
        ∀ c ∈ x.toList, straight c = c := by decide
    exact hascii
  have heq := h { name := "List" } commaSource hdistinct hblank
  rw [ofResponse_inFence hdistinct hblank, ofResponse_withComma_iff,
    firstComponent_trailed_straight hblank hmarks] at heq
  have hsource := congrArg Component.source (Except.ok.inj heq)
  exact absurd hsource (by decide)

end DesignTokens
