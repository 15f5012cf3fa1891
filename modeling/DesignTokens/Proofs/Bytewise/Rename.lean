import DesignTokens.Proofs.Bytewise.Site
import DesignTokens.Proofs.Rewrite.FreeName

/-!
# Renaming by bytes

The sites of a name are looked for among the bytes of code, a free name is looked
for one number after the other, and the text is put together again from the
slices between the sites. The slices follow each other because two sites never
overlap (`renameFrom_eq`), and there is a number for a free name among the first
few (`freeName_eq`).
-/

namespace DesignTokens.Bytewise

open Text Source Rewrite

/-! ## Sites -/

/-- The byte before a place, if there is one. -/
def byteBefore? (bs : List Char) (i : Nat) : Run (Option Char) :=
  if 0 < i then some <$> byteAt bs (i - 1) else return none

/-- The site of a name at a byte of code, if it has one there. -/
def siteIn? (text name : List Char) (first : Char) (i : Nat) (b : Char) :
    Run (Option (Nat × SiteKind)) :=
  if b ≠ first then return none
  else do
    let rest ← sliceFrom text i
    match after? name rest with
    | none => return none
    | some _ => do
      let stop := i + byteLength name
      let before ← byteBefore? (bytes text) i
      if before.any (fun b => isIdent b || b = '.') || (bytes text)[stop]?.any isIdent then
        return none
      else do
        let kind ← siteAt? (bytes text) i stop
        return kind.map (i, ·)

/-- The sites of a name by their bytes. -/
def sites (name text : List Char) : Run (List (Nat × SiteKind)) :=
  match bytes name with
  | [] => return []
  | first :: _ => do
    let code ← codeBetween text 0 (byteLength text)
    let found ← code.mapM fun x => siteIn? text name first x.1 x.2
    return found.reduceOption

/-- The places to rename by their bytes. -/
def renamedSites (name text : List Char) : Run (List Nat) := do
  let all ← sites name text
  let bound := all.any fun s => s.2 = .binding
  return (all.filter fun s => bound || s.2 ≠ .read).map (·.1)

/-- All of a row is looked at without a trap, and this is what is found. -/
def Finds {α β : Type} (f : α → Run (Option β)) (xs : List α) (out : List β) : Prop :=
  ∃ found, xs.mapM f = .ok found ∧ found.reduceOption = out

section

variable {α β : Type} {f : α → Run (Option β)}

theorem Finds.append {xs ys : List α} {out more : List β} (hx : Finds f xs out)
    (hy : Finds f ys more) : Finds f (xs ++ ys) (out ++ more) := by
  obtain ⟨found, hfound, rfl⟩ := hx
  obtain ⟨later, hlater, rfl⟩ := hy
  refine ⟨found ++ later, ?_, List.filterMap_append⟩
  rw [List.mapM_append, hfound, ok_bind, hlater]
  rfl

theorem finds_of_forall_none : ∀ {xs : List α}, (∀ x ∈ xs, f x = .ok none) → Finds f xs []
  | [], _ => ⟨[], rfl, rfl⟩
  | x :: xs, h => by
      obtain ⟨hx, hxs⟩ := List.forall_mem_cons.mp h
      obtain ⟨found, hfound, hnone⟩ := finds_of_forall_none hxs
      refine ⟨none :: found, ?_, hnone⟩
      rw [List.mapM_cons, hx, ok_bind, hfound]
      rfl

theorem Finds.cons {x : α} {xs : List α} {o : Option β} {out : List β} (hx : f x = .ok o)
    (h : Finds f xs out) : Finds f (x :: xs) (o.toList ++ out) := by
  obtain ⟨found, hfound, rfl⟩ := h
  refine ⟨o :: found, ?_, ?_⟩
  · rw [List.mapM_cons, hx, ok_bind, hfound]
    rfl
  · cases o <;> rfl

end

/-- A site by the byte that it starts with. -/
def siteBytes (text : List Char) (s : Nat × SiteKind) : Nat × SiteKind := (byteOffset text s.1, s.2)

theorem byteBefore?_append (a c : List Char) :
    byteBefore? (a ++ c) a.length = .ok a.reverse.head? := by
  rw [byteBefore?]
  rcases List.eq_nil_or_concat' a with rfl | ⟨a, x, rfl⟩
  · rfl
  · rw [List.length_append, List.length_singleton, if_pos (Nat.succ_pos _), Nat.add_sub_cancel,
      List.append_assoc, List.singleton_append, byteAt_append, map_ok]
    simp

/-- Whether a character that no site stands behind is in front. -/
theorem any_before_bytes (pre : List Char) :
    (bytes pre).reverse.head?.any (fun b => isIdent b || b = '.')
      = (identAt pre.reverse.head? || pre.reverse.head? = some '.') := by
  have hascii : ∀ c, (isIdent c || c = '.') = true → isAscii c = true := by
    intro c hc
    rcases Bool.or_eq_true_iff.mp hc with hc | hc
    · exact isAscii_of_isIdent hc
    · obtain rfl := of_decide_eq_true hc
      decide
  rw [reverse_bytes, spelling_charBytes.reverse.any_head?_eq hascii]
  cases pre.reverse.head? with
  | none => rfl
  | some c => simp [identAt]

theorem any_behind_bytes (behind : List Char) :
    (bytes behind).head?.any isIdent = identAt behind.head? :=
  spelling_charBytes.any_head?_eq (fun _ => isAscii_of_isIdent) behind

section

variable {name : List Char} {first : Char}

/-- At a byte of code, a site is found if the character is one. -/
theorem siteIn?_eq (hname : name.head? = some first) (pre : List Char) {c : Char}
    (cs : List Char) :
    siteIn? (pre ++ c :: cs) name first (byteLength pre) c
      = .ok ((siteHere? name pre.reverse (c :: cs) .code).map (byteLength pre, ·)) := by
  obtain ⟨name, rfl⟩ := List.head?_eq_some_iff.mp hname
  rw [siteIn?, siteHere?, if_pos rfl]
  by_cases hc : c = first
  · rw [if_neg (not_not_intro hc), sliceFrom_append, ok_bind]
    cases hafter : after? (first :: name) (c :: cs) with
    | none => rfl
    | some behind =>
        have hbytes : bytes (pre ++ c :: cs)
            = bytes pre ++ (bytes (first :: name) ++ bytes behind) := by
          rw [after_eq_some_iff.mp hafter, bytes_append, bytes_append]
        have hbehind : (bytes pre ++ (bytes (first :: name) ++ bytes behind))[
            byteLength pre + byteLength (first :: name)]? = (bytes behind).head? := by
          rw [← length_bytes, ← length_bytes, ← List.length_append, ← List.append_assoc,
            List.getElem?_append_right le_rfl, Nat.sub_self, List.head?_eq_getElem?]
        have hkind := siteAt?_append (bytes pre) (bytes behind) (bytes (first :: name))
        rw [length_bytes, length_bytes, siteKind?_bytes] at hkind
        have hbefore := byteBefore?_append (bytes pre) (bytes (first :: name) ++ bytes behind)
        rw [length_bytes] at hbefore
        dsimp only
        rw [hbytes, hbefore, ok_bind, hbehind, hkind, ok_bind, any_before_bytes, any_behind_bytes,
          Option.bind_some]
        cases identAt pre.reverse.head? || pre.reverse.head? = some '.' || identAt behind.head? <;>
          rfl
  · have hafter : after? (first :: name) (c :: cs) = none := if_neg (Ne.symm hc)
    rw [if_pos hc, hafter]
    rfl

/-- Among the bytes of code, the sites of an ASCII name are found. -/
theorem finds_siteIn? (hname : name.head? = some first) (hfirst : isAscii first = true)
    (text : List Char) : ∀ (divided : List (Char × Region)) (pre : List Char),
      text = pre ++ divided.map (·.1) →
        Finds (fun x => siteIn? text name first x.1 x.2)
          (codePlaces (byteLength pre) (markBytes divided))
          ((sitesFrom name pre.length pre.reverse (divided.map (·.1)) (divided.map (·.2))).map
            (siteBytes text))
  | [], _, _ => ⟨[], rfl, by rw [List.map_nil, sitesFrom.eq_def]; rfl⟩
  | (c, r) :: divided, pre, htext => by
      have hlater := finds_siteIn? hname hfirst text divided (pre ++ [c]) (by simp [htext])
      rw [byteLength_append, List.length_append, List.length_singleton, List.reverse_append,
        List.reverse_singleton, List.singleton_append] at hlater
      simp only [List.map_cons, sitesFrom_cons, List.map_append] at htext ⊢
      by_cases hskip : r = .code → isAscii c = false
      · obtain ⟨row, hrow, hplaces⟩ := exists_codePlaces_markBytes hskip (byteLength pre) divided
        have hnone : siteHere? name pre.reverse (c :: divided.map (·.1)) r = none := by
          rw [siteHere?]
          split
          case isFalse => rfl
          case isTrue hr =>
            obtain ⟨name, rfl⟩ := List.head?_eq_some_iff.mp hname
            have hne : first ≠ c := (ne_of_not_isAscii (hskip hr) hfirst).symm
            rw [after?, if_neg hne, Option.bind_none]
        rw [hplaces, hnone]
        refine Finds.append (finds_of_forall_none fun x hx => ?_) hlater
        exact if_pos (ne_of_not_isAscii (hrow x hx) hfirst)
      · simp only [Classical.not_imp, Bool.not_eq_false] at hskip
        obtain ⟨rfl, hc⟩ := hskip
        have hhere := siteIn?_eq hname pre (c := c) (divided.map (·.1))
        have hplace : byteOffset text pre.length = byteLength pre := by
          rw [byteOffset, htext, List.take_left]
        rw [← htext] at hhere
        rw [codePlaces_markBytes_of_isAscii hc, ← Option.toList_map, Option.map_map]
        have hsame : siteBytes text ∘ (pre.length, ·) = ((byteLength pre, ·) : SiteKind → _) :=
          funext fun k => congrArg (·, k) hplace
        rw [hsame]
        exact Finds.cons hhere hlater

/-- The sites of a name are found by their bytes. -/
theorem sites_eq (hname : IsName name) (text : List Char) :
    sites name text = .ok ((Rewrite.sites name text).map (siteBytes text)) := by
  obtain ⟨first, cs, rfl, hstart⟩ := hname.start
  have hfirst := isAscii_of_isIdent (isIdent_of_isIdentStart hstart)
  obtain ⟨found, hfound, hsites⟩ := finds_siteIn? (List.head?_cons ..) hfirst text
    (regions text) [] (map_fst_regions text).symm
  rw [sites, bytes_cons_of_isAscii hfirst]
  dsimp only
  rw [byteLength_nil] at hfound
  rw [codeBetween_all, ok_bind, hfound, ok_bind, hsites, map_fst_regions]
  rfl

/-- The places to rename are found by their bytes. -/
theorem renamedSites_eq (hname : IsName name) (text : List Char) :
    renamedSites name text = .ok ((Rewrite.renamedSites name text).map (byteOffset text)) := by
  rw [renamedSites, sites_eq hname, ok_bind, Rewrite.renamedSites]
  refine congrArg Except.ok ?_
  simp only [List.any_map, List.filter_map, List.map_map]
  rfl

end

/-! ## A free name -/

/-- The first free name from a number on, looked for so many times at most. -/
def freeNameFrom (text : List Char) (name : String) : Nat → Nat → Run String
  | 0, _ => throw .stuck
  | tries + 1, n =>
    if holdsName (candidateName name n).toList text then freeNameFrom text name tries (n + 1)
    else return candidateName name n

/-- The first of the names to choose from that is no word of the text. -/
def freeName (text : List Char) (name : String) : Run String :=
  freeNameFrom text name (text.length + 3) 0

theorem freeNameFrom_of_find? {text : List Char} {name : String} {k : Nat} :
    ∀ {tries n : Nat}, ((List.range' n tries).find? fun n =>
        !holdsName (candidateName name n).toList text) = some k →
      freeNameFrom text name tries n = .ok (candidateName name k)
  | 0, _, h => by cases h
  | tries + 1, n, h => by
      rw [List.range'_succ, List.find?_cons] at h
      rw [freeNameFrom]
      cases hn : holdsName (candidateName name n).toList text with
      | true =>
          rw [hn] at h
          rw [if_pos rfl]
          exact freeNameFrom_of_find? h
      | false =>
          rw [hn] at h
          obtain rfl := Option.some.inj h
          rw [if_neg Bool.false_ne_true]
          rfl

/-- A free name is found before the search gives up. -/
theorem freeName_eq (text : List Char) (name : String) :
    freeName text name = .ok (Rewrite.freeName text name) := by
  obtain ⟨k, hk⟩ := Option.ne_none_iff_exists'.mp (find?_candidateName_ne_none text name)
  rw [Rewrite.freeName, hk, Option.getD_some, freeName]
  rw [List.range_eq_range'] at hk
  exact freeNameFrom_of_find? hk

/-! ## Putting the text together -/

/-- The text from a place on, with another name at the given places. -/
def renameFrom (text name free : List Char) : Nat → List Nat → Run (List Char)
  | last, [] => sliceFrom text last
  | last, place :: places => do
    let kept ← slice text last place
    let later ← renameFrom text name free (place + byteLength name) places
    return kept ++ free ++ later

/-- The slices between the places follow each other. -/
theorem renameFrom_eq {name text : List Char} (hname : IsName name) (free : List Char) :
    ∀ {ps : List Nat} {pos : Nat}, ps.Pairwise (· < ·) → (∀ p ∈ ps, pos ≤ p) →
      (∀ p ∈ ps, Stands name text p) → pos ≤ text.length →
        renameFrom text name free (byteOffset text pos) (ps.map (byteOffset text))
          = .ok (rewriteSpans (fun _ => free) pos (ps.map fun p => ⟨p, name.length⟩)
              (text.drop pos))
  | [], pos, _, _, _, hpos => sliceFrom_byteOffset hpos
  | p :: ps, pos, hpairwise, hle, hstands, hpos => by
      obtain ⟨hp, hstand⟩ := List.forall_mem_cons.mp hstands
      obtain ⟨hfirst, hsorted⟩ := List.pairwise_cons.mp hpairwise
      have hpos' := hle p (List.mem_cons_self ..)
      have hgap : ∀ q ∈ ps, p + name.length ≤ q := fun q hq =>
        (hp.lt_of_lt hname (hstand q hq) (hfirst q hq)).le
      obtain ⟨a, b, htext, rfl, -, -⟩ := hp
      have hstop : byteOffset text a.length + byteLength name
          = byteOffset text (a.length + name.length) := by
        rw [byteOffset, byteOffset, htext, List.take_left, ← List.append_assoc,
          ← List.length_append, List.take_left, byteLength_append]
      have hend : a.length + name.length ≤ text.length := by
        rw [htext]
        simp only [List.length_append]
        omega
      have hlater := renameFrom_eq hname free hsorted hgap hstand hend
      rw [List.map_cons, renameFrom, slice_byteOffset hpos' (by omega), ok_bind, hstop, hlater,
        ok_bind, List.map_cons, rewriteSpans, List.drop_take]
      have hrest : ((text.drop pos).drop (a.length - pos)).drop name.length
          = text.drop (a.length + name.length) := by
        rw [List.drop_drop, List.drop_drop, ← Nat.add_assoc, Nat.add_sub_cancel' hpos']
      dsimp only
      rw [hrest]
      rfl

end DesignTokens.Bytewise
