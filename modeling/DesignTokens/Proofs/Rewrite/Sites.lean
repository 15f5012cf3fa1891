import DesignTokens.Proofs.Text.Template
import DesignTokens.Rewrite.Reserved

/-!
# The places of a renaming

Whatever a name does at a site, it stands there as an identifier of its own
(`Stands`). So the sites of a name are the holes of a template, and renaming
them fills the template with the new name instead of the old one
(`exists_renamingTemplate`).
-/

namespace DesignTokens.Rewrite

open Text Source Template

/-! ## Sites -/

theorem noIdent_iff {c : Option Char} : NoIdent c ↔ identAt c = false := by
  cases c with
  | none => exact ⟨fun _ => rfl, fun _ => nofun⟩
  | some d => exact ⟨fun h => h d rfl, fun h _ hd => Option.some.inj hd ▸ h⟩

/-- Among the characters behind `before`, the name stands in code at the position, as an identifier
of its own and behind no point, and does `k` there. -/
def SiteIn (name before cs : List Char) (rs : List Region) (p : Nat) (k : SiteKind) : Prop :=
  ∃ pre post, cs = pre ++ (name ++ post) ∧ p = pre.length ∧ rs[p]? = some .code ∧
    NoIdent (pre.reverse ++ before).head? ∧ (pre.reverse ++ before).head? ≠ some '.' ∧
    NoIdent post.head? ∧ siteKind? (pre.reverse ++ before) post = some k

theorem siteIn_cons {name before cs : List Char} {c : Char} {r : Region} {rs : List Region}
    {p : Nat} {k : SiteKind} :
    SiteIn name before (c :: cs) (r :: rs) (p + 1) k ↔ SiteIn name (c :: before) cs rs p k := by
  constructor
  · rintro ⟨pre, post, hcs, hp, hcode, hsite⟩
    cases pre with
    | nil => cases hp
    | cons d pre =>
        obtain ⟨rfl, rfl⟩ := List.cons.inj hcs
        refine ⟨pre, post, rfl, Nat.succ.inj hp, hcode, ?_⟩
        simpa using hsite
  · rintro ⟨pre, post, rfl, rfl, hcode, hsite⟩
    exact ⟨c :: pre, post, rfl, rfl, hcode, by simpa using hsite⟩

/-- What the name does at the start of the characters, if it is a site there. -/
def siteHere? (name before cs : List Char) (r : Region) : Option SiteKind :=
  if r = .code then
    (after? name cs).bind fun behind =>
      if identAt before.head? || before.head? = some '.' || identAt behind.head? then none
      else siteKind? before behind
  else none

theorem sitesFrom_cons (name : List Char) (pos : Nat) (before : List Char) (c : Char)
    (cs : List Char) (r : Region) (rs : List Region) :
    sitesFrom name pos before (c :: cs) (r :: rs)
      = ((siteHere? name before (c :: cs) r).map (pos, ·)).toList
        ++ sitesFrom name (pos + 1) (c :: before) cs rs := by
  rw [sitesFrom.eq_def, siteHere?]
  dsimp only
  cases r with
  | string => rfl
  | comment => rfl
  | code =>
      rw [if_pos rfl]
      cases after? name (c :: cs) with
      | none => rfl
      | some behind =>
          rw [Option.bind_some]
          dsimp only
          by_cases hends :
              (identAt before.head? || before.head? = some '.' || identAt behind.head?) = true
          · rw [if_pos hends, if_pos hends]
            rfl
          · rw [if_neg hends, if_neg hends]
            cases siteKind? before behind <;> rfl

theorem siteIn_zero {name before cs : List Char} {r : Region} {rs : List Region} {k : SiteKind} :
    SiteIn name before cs (r :: rs) 0 k ↔ siteHere? name before cs r = some k := by
  rw [siteHere?]
  constructor
  · rintro ⟨pre, post, rfl, hp, hcode, hbefore, hpoint, hbehind, hk⟩
    obtain rfl := List.length_eq_zero_iff.mp hp.symm
    rw [if_pos (Option.some.inj hcode), List.nil_append, after_eq_some_iff.mpr rfl,
      Option.bind_some, if_neg]
    · exact hk
    · rw [List.reverse_nil, List.nil_append] at hbefore hpoint
      simp [noIdent_iff.mp hbefore, noIdent_iff.mp hbehind, hpoint]
  · intro h
    split at h
    case isFalse => cases h
    case isTrue hr =>
      obtain ⟨behind, hafter, h⟩ := Option.bind_eq_some_iff.mp h
      split at h
      case isTrue => cases h
      case isFalse hends =>
        simp only [Bool.or_eq_true, not_or, Bool.not_eq_true, decide_eq_false_iff_not] at hends
        have hcs : cs = name ++ behind := after_eq_some_iff.mp hafter
        exact ⟨[], behind, hcs, rfl, congrArg some hr, noIdent_iff.mpr hends.1.1, hends.1.2,
          noIdent_iff.mpr hends.2, h⟩

theorem mem_sitesFrom_iff {name : List Char} (hname : name ≠ []) {k : SiteKind} {q : Nat} :
    ∀ {cs : List Char} {rs : List Region} {pos : Nat} {before : List Char},
      (q, k) ∈ sitesFrom name pos before cs rs ↔
        ∃ p, q = pos + p ∧ SiteIn name before cs rs p k
  | [], rs, pos, before => by
      rw [sitesFrom.eq_def]
      refine ⟨nofun, ?_⟩
      rintro ⟨p, -, pre, post, hcs, -⟩
      simp [hname] at hcs
  | c :: cs, [], pos, before => by
      rw [sitesFrom.eq_def]
      refine ⟨nofun, ?_⟩
      rintro ⟨p, -, pre, post, -, -, hcode, -⟩
      simp at hcode
  | c :: cs, r :: rs, pos, before => by
      have ih : (q, k) ∈ sitesFrom name (pos + 1) (c :: before) cs rs ↔
          ∃ p, q = pos + (p + 1) ∧ SiteIn name before (c :: cs) (r :: rs) (p + 1) k := by
        rw [mem_sitesFrom_iff hname]
        simp only [siteIn_cons, Nat.add_assoc, Nat.add_comm 1]
      have hsplit : (∃ p, q = pos + p ∧ SiteIn name before (c :: cs) (r :: rs) p k) ↔
          (q = pos ∧ SiteIn name before (c :: cs) (r :: rs) 0 k) ∨
            (q, k) ∈ sitesFrom name (pos + 1) (c :: before) cs rs := by
        rw [ih]
        constructor
        · rintro ⟨_ | p, hq, hsite⟩
          · exact .inl ⟨hq, hsite⟩
          · exact .inr ⟨p, hq, hsite⟩
        · rintro (⟨hq, hsite⟩ | ⟨p, hq, hsite⟩)
          · exact ⟨0, hq, hsite⟩
          · exact ⟨p + 1, hq, hsite⟩
      rw [hsplit, sitesFrom_cons, List.mem_append, siteIn_zero]
      refine or_congr_left ?_
      simp only [Option.mem_toList, Option.map_eq_some_iff, Prod.mk.injEq]
      constructor
      · rintro ⟨k', hk', rfl, rfl⟩
        exact ⟨rfl, hk'⟩
      · rintro ⟨rfl, hk⟩
        exact ⟨k, hk, rfl, rfl⟩

theorem pairwise_sitesFrom {name : List Char} (hname : name ≠ []) :
    ∀ (cs : List Char) (rs : List Region) (pos : Nat) (before : List Char),
      ((sitesFrom name pos before cs rs).map (·.1)).Pairwise (· < ·)
  | [], _, _, _ => by
      rw [sitesFrom.eq_def]
      exact List.Pairwise.nil
  | _ :: _, [], _, _ => by
      rw [sitesFrom.eq_def]
      exact List.Pairwise.nil
  | c :: cs, r :: rs, pos, before => by
      have ih := pairwise_sitesFrom hname cs rs (pos + 1) (c :: before)
      rw [sitesFrom_cons, List.map_append, List.pairwise_append]
      refine ⟨?_, ih, fun p hp q hq => ?_⟩
      · cases siteHere? name before (c :: cs) r with
        | none => exact List.Pairwise.nil
        | some k => exact List.pairwise_singleton _ _
      · obtain ⟨⟨q, k'⟩, hx, rfl⟩ := List.mem_map.mp hq
        obtain ⟨n, rfl, -⟩ := (mem_sitesFrom_iff hname).mp hx
        have hpos : p = pos := by
          cases hk : siteHere? name before (c :: cs) r with
          | none => simp [hk] at hp
          | some k => simpa [hk] using hp
        show p < pos + 1 + n
        omega

/-- The sites of a name in a text. -/
theorem mem_sites_iff {name text : List Char} (hname : name ≠ []) {p : Nat} {k : SiteKind} :
    (p, k) ∈ sites name text ↔ SiteIn name [] text ((regions text).map (·.2)) p k := by
  rw [sites, if_neg (by simpa using hname), mem_sitesFrom_iff hname]
  constructor
  · rintro ⟨q, rfl, h⟩
    rwa [Nat.zero_add]
  · exact fun h => ⟨p, (Nat.zero_add p).symm, h⟩

/-- A key or a declared property is renamed, and so is every other use but a read of what is bound
nowhere. -/
theorem mem_renamedSites_iff {name text : List Char} {p : Nat} :
    p ∈ renamedSites name text ↔ ∃ k, (p, k) ∈ sites name text ∧
      (k = .read → ∃ q, (q, .binding) ∈ sites name text) := by
  simp only [renamedSites, List.mem_map, List.mem_filter]
  constructor
  · rintro ⟨⟨q, k⟩, ⟨hsite, hkeep⟩, rfl⟩
    refine ⟨k, hsite, ?_⟩
    rintro rfl
    simpa using hkeep
  · rintro ⟨k, hsite, hkeep⟩
    refine ⟨(p, k), ⟨hsite, ?_⟩, rfl⟩
    by_cases hk : k = .read
    · simpa [hk] using hkeep hk
    · simp [hk]

theorem pairwise_renamedSites {name : List Char} (hname : name ≠ []) (text : List Char) :
    (renamedSites name text).Pairwise (· < ·) := by
  have hsub : (renamedSites name text).Sublist ((sites name text).map (·.1)) :=
    List.filter_sublist.map _
  refine List.Pairwise.sublist hsub ?_
  rw [sites, if_neg (by simpa using hname)]
  exact pairwise_sitesFrom hname _ _ _ _

/-! ## Places that stand for themselves -/

/-- The name stands at the position as an identifier of its own. -/
def Stands (name text : List Char) (p : Nat) : Prop :=
  ∃ pre post, text = pre ++ (name ++ post) ∧ p = pre.length ∧
    NoIdent pre.getLast? ∧ NoIdent post.head?

theorem stands_of_mem_renamedSites {name text : List Char} (hname : name ≠ []) {p : Nat}
    (h : p ∈ renamedSites name text) : Stands name text p := by
  obtain ⟨k, hsite, -⟩ := mem_renamedSites_iff.mp h
  obtain ⟨pre, post, htext, hp, -, hbefore, -, hbehind, -⟩ := (mem_sites_iff hname).mp hsite
  exact ⟨pre, post, htext, hp, by simpa using hbefore, hbehind⟩

/-- Two places of a name neither overlap nor touch. -/
theorem Stands.lt_of_lt {name text : List Char} {p q : Nat} (hname : IsName name)
    (hp : Stands name text p) (hq : Stands name text q) (hpq : p < q) : p + name.length < q := by
  obtain ⟨pre, post, htext, rfl, -, -⟩ := hp
  obtain ⟨pre', post', htext', rfl, hbefore, -⟩ := hq
  by_contra hle
  -- the text before the second place would come to its end within the name
  have hpre : pre' = pre ++ name.take (pre'.length - pre.length) := by
    calc pre' = (pre' ++ (name ++ post')).take pre'.length := List.take_left.symm
      _ = (pre ++ (name ++ post)).take pre'.length := by rw [← htext', htext]
      _ = pre ++ name.take (pre'.length - pre.length) := by
          rw [List.take_append, List.take_of_length_le (by omega),
            List.take_append_of_le_length (by omega)]
  have hne : name.take (pre'.length - pre.length) ≠ [] := by
    have := hname.length_pos
    rw [Ne, List.take_eq_nil_iff, not_or]
    exact ⟨by omega, hname.ne_nil⟩
  obtain ⟨c, hc⟩ := Option.ne_none_iff_exists'.mp (mt List.getLast?_eq_none_iff.mp hne)
  have hno : isIdent c = false := by
    refine hbefore c ?_
    rw [hpre, List.getLast?_append, hc]
    rfl
  rw [hname.all c (List.mem_of_mem_take (List.mem_of_getLast? hc))] at hno
  cases hno

/-- A text whose first `pos` characters are left out, as a template with holes at the given
places. -/
theorem exists_template {name text : List Char} (hname : IsName name) :
    ∀ (ps : List Nat) (pos : Nat), ps.Pairwise (· < ·) → (∀ p ∈ ps, pos ≤ p) →
      (∀ p ∈ ps, Stands name text p) →
      ∃ t, Apart t ∧ fill name t = text.drop pos ∧
        (∀ f, rewriteSpans (fun _ => f) pos (ps.map fun p => ⟨p, name.length⟩) (text.drop pos)
          = fill f t) ∧
        ∀ p, p ∈ ps ↔ ∃ s u, t = s ++ none :: u ∧ p = pos + (fill name s).length
  | [], pos, _, _, _ => by
      refine ⟨(text.drop pos).map some, apart_map_some _, fill_map_some _,
        fun f => (fill_map_some _).symm, fun p => ?_⟩
      constructor
      · exact fun h => nomatch h
      · rintro ⟨s, u, ht, -⟩
        exact absurd (ht ▸ by simp) (none_not_mem_map_some (text.drop pos))
  | p :: ps, pos, hsorted, hpos, hstands => by
      obtain ⟨hp, hsorted⟩ := List.pairwise_cons.mp hsorted
      have hstand := hstands p (List.mem_cons_self ..)
      have hps : ∀ q ∈ ps, p + name.length < q := fun q hq =>
        hstand.lt_of_lt hname (hstands q (List.mem_cons_of_mem p hq)) (hp q hq)
      obtain ⟨t, hapart, hfill, hrewrite, hmem⟩ :=
        exists_template hname ps (p + name.length) hsorted (fun q hq => (hps q hq).le)
          fun q hq => hstands q (List.mem_cons_of_mem p hq)
      have hle : pos ≤ p := hpos p (List.mem_cons_self ..)
      obtain ⟨pre, post, rfl, rfl, hbefore, hbehind⟩ := hstand
      have hdrop : (pre ++ (name ++ post)).drop (pre.length + name.length) = post := by
        rw [← List.append_assoc, ← List.length_append, List.drop_left]
      have hcs : (pre ++ (name ++ post)).drop pos = pre.drop pos ++ (name ++ post) := by
        rw [List.drop_append_of_le_length hle]
      have hlen : (pre.drop pos).length = pre.length - pos := List.length_drop
      rw [hdrop] at hfill hrewrite
      rw [hcs]
      -- the next place does not touch this one, so the template goes on with a character
      have hhead : ∀ slot ∈ t.head?, Slot.inIdent slot = false := by
        cases t with
        | nil => simp
        | cons slot t =>
            cases slot with
            | none =>
                have := hps _ ((hmem (pre.length + name.length)).mpr ⟨[], t, rfl, by simp⟩)
                exact absurd this (Nat.lt_irrefl _)
            | some c =>
                rintro _ ⟨⟩
                refine hbehind c ?_
                rw [← hfill]
                rfl
      refine ⟨(pre.drop pos).map some ++ none :: t, apart_hole ?_ hapart hhead, ?_, fun f => ?_,
        fun q => ?_⟩
      · intro c hc
        refine hbefore c ?_
        rw [List.getLast?_drop] at hc
        split at hc
        case isTrue => cases hc
        case isFalse => exact hc
      · rw [fill_append, fill_map_some, fill_none, hfill]
      · rw [List.map_cons, rewriteSpans]
        simp only [← hlen, List.take_left, List.drop_left, Span.stop, hrewrite f]
        rw [fill_append, fill_map_some, fill_none, List.append_assoc]
      · simp only [List.mem_cons, hmem, eq_append_hole_iff]
        constructor
        · rintro (rfl | ⟨s, u, rfl, rfl⟩)
          · refine ⟨_, _, .inl ⟨rfl, rfl⟩, ?_⟩
            rw [fill_map_some]
            omega
          · refine ⟨_, _, .inr ⟨s, rfl, rfl⟩, ?_⟩
            rw [fill_append, fill_map_some, fill_none, List.length_append, List.length_append]
            omega
        · rintro ⟨s, u, ⟨rfl, rfl⟩ | ⟨s, rfl, rfl⟩, rfl⟩
          · refine .inl ?_
            rw [fill_map_some]
            omega
          · refine .inr ⟨s, u, rfl, ?_⟩
            rw [fill_append, fill_map_some, fill_none, List.length_append, List.length_append]
            omega

/-! ## The template of a renaming -/

/-- The text with a name renamed at its places. -/
def renamedText (name free text : List Char) : List Char :=
  rewriteSpans (fun _ => free) 0 ((renamedSites name text).map fun p => ⟨p, name.length⟩) text

/-- A text as a template with holes at the places of a renaming. -/
structure RenamingTemplate (name text : List Char) (t : Template) : Prop where
  apart : Apart t
  fill_name : fill name t = text
  fill_free : ∀ free, renamedText name free text = fill free t
  mem_iff : ∀ p, p ∈ renamedSites name text ↔
    ∃ s u, t = s ++ none :: u ∧ p = (fill name s).length

theorem exists_renamingTemplate {name : List Char} (hname : IsName name) (text : List Char) :
    ∃ t, RenamingTemplate name text t := by
  obtain ⟨t, hapart, hfill, hrewrite, hmem⟩ :=
    exists_template hname (renamedSites name text) 0
      (pairwise_renamedSites hname.ne_nil text) (fun p _ => Nat.zero_le p)
      fun p hp => stands_of_mem_renamedSites hname.ne_nil hp
  simp only [Nat.zero_add] at hmem
  exact ⟨t, hapart, hfill, hrewrite, hmem⟩

theorem RenamingTemplate.not_mem {name text : List Char} {s u : Template} {c : Char}
    (h : RenamingTemplate name text (s ++ some c :: u)) (hname : IsName name) :
    (fill name s).length ∉ renamedSites name text := by
  intro hmem
  obtain ⟨s', u', ht, hs⟩ := (h.mem_iff _).mp hmem
  have hsame : s = s' := prefix_unique hname ht hs
  rw [hsame, List.append_cancel_left_eq] at ht
  cases ht

end DesignTokens.Rewrite
