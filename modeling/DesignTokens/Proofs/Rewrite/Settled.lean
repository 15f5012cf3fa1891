import DesignTokens.Proofs.Rewrite.ColorEdit
import DesignTokens.Proofs.Rewrite.Reserved
import DesignTokens.Proofs.Rewrite.SiteKind

/-!
# Texts that are settled

A renaming leaves none of its own sites behind: a name that still stands outside
the holes does there what it did before, so it would have been renamed in the
first place (`renamedSites_renamedText`). Therefore the builtin renaming does
nothing to its own result. It brings in no literal color either, so neither do
the color mappings, and applying such mappings once more changes nothing
(`colorsSettled_applyMappings`). An empty mapping set, which asks for the renaming
alone, has nothing to do either (`applyTraced_empty_applyMappings`).
-/

namespace DesignTokens.Rewrite

open Text Source Template

/-! ## Names outside the holes -/

section

variable {name w v : List Char} {t : Template}

theorem eq_append_of_fill : ∀ {name post : List Char} {t : Template}, Apart t →
    (∀ c ∈ name, isIdent c = true) → t.head? ≠ some none → fill w t = name ++ post →
    ∃ u, t = name.map some ++ u ∧ fill w u = post
  | [], _, t, _, _, _, hfill => ⟨t, rfl, hfill⟩
  | _ :: _, _, [], _, _, _, hfill => nomatch hfill
  | _ :: _, _, none :: _, _, _, hhead, _ => absurd rfl hhead
  | c :: name, post, some d :: t, ht, hname, _, hfill => by
      obtain ⟨rfl, htail⟩ := List.cons.inj hfill
      have hhead : t.head? ≠ some none := by
        cases t with
        | nil => simp
        | cons slot t => simpa using ht.ne_none (hname d (List.mem_cons_self ..))
      obtain ⟨u, rfl, hu⟩ :=
        eq_append_of_fill ht.tail (fun e he => hname e (List.mem_cons_of_mem d he)) hhead htail
      exact ⟨u, rfl, hu⟩

/-- A name that stands in a filling as an identifier of its own, and is not the word in the holes,
stands in the template. -/
theorem exists_split_of_fill (hw : IsRun w) (hname : IsName name) (hne : w ≠ name) :
    ∀ {t : Template} {pre post : List Char}, Apart t → fill w t = pre ++ (name ++ post) →
      NoIdent pre.getLast? → NoIdent post.head? →
      ∃ s u, t = s ++ (name.map some ++ u) ∧ fill w s = pre ∧ fill w u = post := by
  intro t
  induction t with
  | nil =>
      intro pre post _ hfill
      simp [hname.ne_nil] at hfill
  | cons slot t ih =>
      intro pre post ht hfill hbefore hbehind
      cases slot with
      | some c =>
          cases pre with
          | nil =>
              obtain ⟨u, hu, hpost⟩ := eq_append_of_fill ht hname.all (by simp) hfill
              exact ⟨[], u, hu, rfl, hpost⟩
          | cons d pre =>
              obtain ⟨rfl, htail⟩ := List.cons.inj hfill
              have hlast : NoIdent pre.getLast? := by
                intro e he
                refine hbefore e ?_
                rw [List.getLast?_cons, he]
                rfl
              obtain ⟨s, u, rfl, rfl, hu⟩ := ih ht.tail htail hlast hbehind
              exact ⟨some c :: s, u, rfl, rfl, hu⟩
      | none =>
          rw [fill_none] at hfill
          rcases List.append_eq_append_iff.mp hfill with ⟨pre', rfl, hrest⟩ | ⟨x, hx, hrest⟩
          · -- the name stands behind the hole
            have hlast : NoIdent pre'.getLast? := by
              intro e he
              refine hbefore e ?_
              rw [List.getLast?_append, he]
              rfl
            obtain ⟨s, u, rfl, rfl, hu⟩ := ih ht.tail hrest hlast hbehind
            exact ⟨none :: s, u, rfl, rfl, hu⟩
          · -- the name starts within the hole, so it is the word there
            cases hpre : pre.getLast? with
            | some e =>
                have hmem : e ∈ w := by
                  rw [hx]
                  exact List.mem_append_left x (List.mem_of_getLast? hpre)
                have hno := hbefore e hpre
                rw [hw.all e hmem] at hno
                cases hno
            | none =>
                obtain rfl := List.getLast?_eq_none_iff.mp hpre
                obtain rfl : w = x := hx
                have hword : (name ++ post).takeWhile isIdent = w := by
                  rw [hrest, takeWhile_isIdent_append hw.all ht.noIdent_behind]
                rw [takeWhile_isIdent_append hname.all hbehind] at hword
                exact absurd hword.symm hne

/-! ## The renaming -/

/-- Whatever a name does in the renamed text, it did before at a place that was not renamed. -/
theorem exists_site_of_mem_sites (hname : Mute name) (hw : Mute w) (hne : w ≠ name)
    {text : List Char} (ht : RenamingTemplate name text t) {p : Nat} {k : SiteKind}
    (h : (p, k) ∈ sites name (fill w t)) :
    ∃ q, (q, k) ∈ sites name text ∧ q ∉ renamedSites name text := by
  obtain ⟨pre, post, hfill, rfl, -, hbefore, -, hbehind, -⟩ :=
    (mem_sites_iff hname.name.ne_nil).mp h
  have hlast : NoIdent pre.getLast? := by
    rwa [List.append_nil, List.head?_reverse] at hbefore
  obtain ⟨s, u, rfl, rfl, rfl⟩ :=
    exists_split_of_fill hw.isRun hname.name hne ht.apart hfill hlast hbehind
  have hsite := mem_sites_fill hname.name.ne_nil hw hname ht.apart.left ht.apart.right.right h
  rw [ht.fill_name] at hsite
  refine ⟨_, hsite, ?_⟩
  obtain ⟨c, cs, rfl, -⟩ := hname.name.start
  exact ht.not_mem hname.name

theorem renamedSites_renamedText (hname : Mute name) (hw : Mute w) (hne : w ≠ name)
    (text : List Char) : renamedSites name (renamedText name w text) = [] := by
  obtain ⟨t, ht⟩ := exists_renamingTemplate hname.name text
  rw [ht.fill_free, List.eq_nil_iff_forall_not_mem]
  intro p hp
  obtain ⟨k, hk, hkeep⟩ := mem_renamedSites_iff.mp hp
  obtain ⟨q, hq, hleft⟩ := exists_site_of_mem_sites hname hw hne ht hk
  refine hleft (mem_renamedSites_iff.mpr ⟨k, hq, fun hread => ?_⟩)
  obtain ⟨p', hbinding⟩ := hkeep hread
  obtain ⟨q', hq', -⟩ := exists_site_of_mem_sites hname hw hne ht hbinding
  exact ⟨q', hq'⟩

end

theorem renamedText_of_nil {name free text : List Char} (h : renamedSites name text = []) :
    renamedText name free text = text := by
  rw [renamedText, h]
  rfl

/-- Behind a renaming the same renaming has nothing to do. -/
theorem reservedEdit_after_eq_none {call : List Char} {reserved renamed : String}
    {text : List Char} (hname : Mute reserved.toList)
    (hfree : Mute (freeName text renamed).toList) (hne : freeName text renamed ≠ reserved) :
    reservedEdit call reserved renamed ((reservedEdit call reserved renamed).after text)
      = none := by
  rw [after_reservedEdit]
  split
  case isFalse hdim =>
    rw [Bool.not_eq_true] at hdim
    rw [reservedEdit, hdim]
    rfl
  case isTrue =>
    have hnone := renamedSites_renamedText hname hfree (mt String.toList_inj.mp hne) text
    simp only [reservedEdit, hnone, ite_self]

theorem reservedEdit_settled {call : List Char} {reserved renamed : String} {text : List Char}
    (hname : Mute reserved.toList) (hfree : Mute (freeName text renamed).toList)
    (hne : freeName text renamed ≠ reserved) :
    (reservedEdit call reserved renamed).after ((reservedEdit call reserved renamed).after text)
      = (reservedEdit call reserved renamed).after text := by
  rw [Edit.after, reservedEdit_after_eq_none hname hfree hne]
  rfl

/-! ## The builtin renaming -/

theorem toList_inputType : "inputType".toList = 'i' :: "nputType".toList := by decide

theorem exists_freeName_append (text : List Char) (name : String) :
    ∃ form, (freeName text name).toList = name.toList ++ form :=
  exists_candidateName_append name _

theorem mute_type : Mute "type".toList :=
  ⟨(Policy.valid_builtin.isName_reserved (List.mem_singleton_self _)).1, by decide⟩

theorem mute_freeName_inputType (text : List Char) : Mute (freeName text "inputType").toList where
  name := by
    have hvalid := Policy.valid_builtin.isName_reserved (List.mem_singleton_self _)
    exact isName_candidateName hvalid.2.1 _
  silent := by
    have hprefix : ∀ word ∈ tellingWords, ¬"inputType".toList <+: word.toList := by decide
    obtain ⟨form, hform⟩ := exists_freeName_append text "inputType"
    rw [String.ofList_toList]
    exact fun hmem => hprefix _ hmem ⟨form, hform.symm⟩

theorem freeName_inputType_ne (text : List Char) : freeName text "inputType" ≠ "type" := by
  intro h
  obtain ⟨form, hform⟩ := exists_freeName_append text "inputType"
  have hprefix : ¬"inputType".toList <+: "type".toList := by decide
  exact hprefix ⟨form, by rw [← hform, h]⟩

/-- The builtin renaming brings no literal color together. -/
theorem blunt_freeName_inputType (text : List Char) :
    Blunt "type".toList (freeName text "inputType").toList where
  no_hash := by
    intro hmem
    exact absurd ((mute_freeName_inputType text).name.all '#' hmem) (by decide)
  start := by
    obtain ⟨form, hform⟩ := exists_freeName_append text "inputType"
    refine .inl ⟨'i', ?_, by decide⟩
    rw [hform, toList_inputType, List.cons_append, List.takeWhile_cons_of_pos (by decide)]
    exact List.mem_cons_self ..

theorem reservedEdits_builtin (text : List Char) :
    (runEdits (reservedEdits Policy.builtin.variantCall.toList Policy.builtin.reserved) text).1
      = (reservedEdit "cva".toList "type" "inputType").after text := by
  rw [show reservedEdits Policy.builtin.variantCall.toList Policy.builtin.reserved
    = [reservedEdit "cva".toList "type" "inputType"] from rfl, runEdits_cons]
  rfl

/-- An empty mapping set finds nothing to do in a text that any mapping set has been applied to. -/
theorem applyTraced_empty_applyMappings (text : List Char) (m : MappingSet) :
    applyMappings (applyMappings text m Policy.builtin) {} Policy.builtin
        = applyMappings text m Policy.builtin ∧
      (applyTraced (applyMappings text m Policy.builtin) {} Policy.builtin).records = [] := by
  have hnone : ∀ e ∈ reservedEdits Policy.builtin.variantCall.toList Policy.builtin.reserved,
      e (applyMappings text m Policy.builtin) = none := by
    intro e he
    obtain ⟨x, hx, rfl⟩ := List.mem_map.mp he
    obtain rfl := List.mem_singleton.mp hx
    rw [applyMappings_eq, reservedEdits_builtin]
    exact reservedEdit_after_eq_none mute_type (mute_freeName_inputType _)
      (freeName_inputType_ne _)
  have hpass := runEdits_of_forall_none hnone
  constructor
  · rw [applyMappings_eq (applyMappings text m Policy.builtin)]
    exact congrArg (·.1) hpass
  · have hrecords : (applyTraced (applyMappings text m Policy.builtin) {} Policy.builtin).records
        = (runEdits (reservedEdits Policy.builtin.variantCall.toList Policy.builtin.reserved)
            (applyMappings text m Policy.builtin)).2 ++ [] := rfl
    rw [hrecords, hpass]
    rfl

theorem colorIn_of_renaming {w text : List Char} (hw : IsHexColor w)
    (h : ColorIn w ((reservedEdit "cva".toList "type" "inputType").after text)) :
    ColorIn w text := by
  rw [after_reservedEdit] at h
  split at h
  case isFalse => exact h
  case isTrue =>
    obtain ⟨t, ht⟩ := exists_renamingTemplate mute_type.name text
    rw [ht.fill_free] at h
    rw [← ht.fill_name]
    exact colorIn_of_reworded (reworded_fill (blunt_freeName_inputType text) t) hw h

/-! ## Mapping sets of colors -/

/-- The mapping set writes tokens with slots for colors and asks for nothing else. -/
structure OnlyThemed (m : MappingSet) : Prop where
  colors : ∀ c ∈ m.colors, Themed c
  spacing : m.spacing = []
  variants : m.variants = []

theorem OnlyThemed.applyMappings_eq {m : MappingSet} (hm : OnlyThemed m) (text : List Char) :
    applyMappings text m Policy.builtin
      = (reservedEdit "cva".toList "type" "inputType").after
          (runEdits (colorEdits m.colors) text).1 := by
  have hbefore : beforeRenaming text m Policy.builtin
      = (runEdits (colorEdits m.colors) text).1 := by
    simp only [beforeRenaming, runPasses, Pass.edits, hm.spacing, hm.variants]
    rfl
  rw [Rewrite.applyMappings_eq, reservedEdits_builtin, hbefore]

/-- The color pass leaves none of its colors, it brings in no color, and the whole rewriting is
settled after one run. -/
theorem colorsSettled_applyMappings {m : MappingSet} (hm : OnlyThemed m) (text : List Char) :
    (∀ c ∈ m.colors, ∀ w, lowered w = lowered (trim c.literal.toList) →
      ¬ColorIn w (runEdits (Pass.colors.edits m Policy.builtin) text).1) ∧
    (∀ c ∈ literalColors (runEdits (Pass.colors.edits m Policy.builtin) text).1,
      c ∈ literalColors text) ∧
    applyMappings (applyMappings text m Policy.builtin) m Policy.builtin
      = applyMappings text m Policy.builtin := by
  refine ⟨not_colorIn_colorEdits hm.colors, ?_, ?_⟩
  · intro c hc
    rw [mem_literalColors_iff] at hc ⊢
    exact ⟨hc.1, colorIn_of_colorEdits hm.colors hc.1 hc.2⟩
  · have hclear : ∀ c ∈ m.colors, ∀ w, lowered w = lowered (trim c.literal.toList) →
        ¬ColorIn w ((reservedEdit "cva".toList "type" "inputType").after
          (runEdits (colorEdits m.colors) text).1) := by
      intro c hc w hw hcolor
      have hhex := (hm.colors c hc).literal.of_lowered hw
      exact not_colorIn_colorEdits hm.colors c hc w hw (colorIn_of_renaming hhex hcolor)
    rw [hm.applyMappings_eq (applyMappings text m Policy.builtin), hm.applyMappings_eq text,
      colorEdits_of_not_colorIn hm.colors hclear]
    exact reservedEdit_settled mute_type (mute_freeName_inputType _) (freeName_inputType_ne _)

/-- Colors in and out of brackets, one of which is the start of another. -/
def colorSource : List Char :=
  "cva(\x7bvariants: \x7btype: 'text-[#FFF] #fff #ffff bg-[#ABC123]'\x7d\x7d) type".toList

def themedColors : MappingSet :=
  { colors := [⟨"a", " #fff ", "bg-primary"⟩, ⟨"b", "#abc123", "text-accent-2"⟩] }

theorem colorsSettled_colorSource :
    (∀ c ∈ themedColors.colors, ∀ w, lowered w = lowered (trim c.literal.toList) →
      ¬ColorIn w (runEdits (Pass.colors.edits themedColors Policy.builtin) colorSource).1) ∧
    (∀ c ∈ literalColors (runEdits (Pass.colors.edits themedColors Policy.builtin) colorSource).1,
      c ∈ literalColors colorSource) ∧
    applyMappings (applyMappings colorSource themedColors Policy.builtin) themedColors
        Policy.builtin
      = applyMappings colorSource themedColors Policy.builtin := by
  refine colorsSettled_applyMappings ⟨?_, rfl, rfl⟩ colorSource
  intro c hc
  simp only [themedColors, List.mem_cons, List.not_mem_nil, or_false] at hc
  rcases hc with rfl | rfl
  · exact ⟨⟨"fff".toList, by decide, by decide, by decide, by decide⟩,
      ⟨by decide, by rw [IsPlain]; decide⟩⟩
  · exact ⟨⟨"abc123".toList, by decide, by decide, by decide, by decide⟩,
      ⟨by decide, by rw [IsPlain]; decide⟩⟩

end DesignTokens.Rewrite
