import Mathlib.Logic.Function.Basic
import DesignTokens.Proofs.Rewrite.Audit
import DesignTokens.Proofs.Token.Row
import DesignTokens.Proofs.Token.Written

/-!
# The spacing pass

The edits of the spacing mappings work on the row of tokens that a text is: each
puts the token of the last mapping of its bucket in the place of the bucket's
first token in the row (`after_spacingEdit`), and leaves all other tokens and all
that stands between them. As a token of a bucket is replaced by a token of the
same bucket, no edit changes what another one finds, so the order of the buckets
is of no account and a second pass changes nothing (`spaced_settled`).
-/

namespace DesignTokens.Rewrite

open Text

/-- The text that the spacing mappings make of a text. -/
def spaced (ms : List SpacingMapping) (text : List Char) : List Char :=
  (runEdits (spacingEdits ms) text).1

/-- The last mapping of a bucket. -/
def lastOf (ms : List SpacingMapping) (b : Bucket) : Option SpacingMapping :=
  (ms.filter fun m => Bucket.of m.property = b).getLast?

/-- The stretch with the token of a mapping in the place of its own. -/
def written (m : SpacingMapping) (s : Stretch) : Stretch :=
  { s with property := m.property, token := m.token.toList }

/-- The row in which the first token of each bucket that has a mapping is the one of the mapping. -/
def settled (win : Bucket → Option SpacingMapping) : List Stretch → List Stretch
  | [] => []
  | s :: row =>
    (match win (Bucket.of s.property) with
      | some m => written m s
      | none => s)
      :: settled (Function.update win (Bucket.of s.property) none) row

/-- The row in which the first token of a mapping's bucket is the one of the mapping. -/
def settle (m : SpacingMapping) : List Stretch → List Stretch
  | [] => []
  | s :: row =>
    if Bucket.of s.property = Bucket.of m.property then written m s :: row else s :: settle m row

/-! ## One edit -/

/-- The first token of a bucket in a row that starts at a position. -/
def leading (b : Bucket) : Nat → List Stretch → Option Occurrence
  | _, [] => none
  | pos, s :: row =>
    if Bucket.of s.property = b then
      some ⟨s.property, pos + s.gap.length, s.token, s.property.pixels? s.token⟩
    else leading b (pos + s.gap.length + s.token.length) row

section

variable {row : List Stretch} {rest : List Char} {b : Bucket}

theorem le_start_of_mem_shown {p : Property} {o : Occurrence} : ∀ {row : List Stretch} {pos : Nat},
    o ∈ p.shown pos row → pos ≤ o.start
  | s :: row, pos, h => by
      rcases List.mem_append.mp h with h | h
      · split at h
        case isTrue =>
          rw [List.mem_singleton.mp h]
          exact Nat.le_add_right ..
        case isFalse => cases h
      · have := le_start_of_mem_shown h
        omega

/-- A bucket without a first token has none. -/
theorem shown_of_leading_eq_none {p : Property} (hp : Bucket.of p = b) :
    ∀ {row : List Stretch} {pos : Nat}, leading b pos row = none → p.shown pos row = []
  | [], _, _ => rfl
  | s :: row, pos, h => by
      rw [leading] at h
      split at h
      case isTrue => cases h
      case isFalse hs =>
        have hne : s.property ≠ p := fun heq => hs (heq ▸ hp)
        rw [Property.shown, if_neg hne, shown_of_leading_eq_none hp h, List.append_nil]

/-- The first token of a bucket is the first one of its property, and all others of the bucket
start behind it. -/
theorem leading_first {o : Occurrence} : ∀ {row : List Stretch} {pos : Nat},
    (∀ s ∈ row, s.token ≠ []) → leading b pos row = some o →
      Bucket.of o.property = b ∧ (o.property.shown pos row).head? = some o ∧
      ∀ p, Bucket.of p = b → ∀ o' ∈ p.shown pos row, o' = o ∨ o.start < o'.start
  | s :: row, pos, htoken, h => by
      rw [leading] at h
      split at h
      case isTrue hs =>
        cases h
        refine ⟨hs, by rw [Property.shown, if_pos rfl]; rfl, fun p _ o' ho' => ?_⟩
        rcases List.mem_append.mp ho' with ho' | ho'
        · split at ho'
          case isTrue heq =>
            subst heq
            exact .inl (List.mem_singleton.mp ho')
          case isFalse => cases ho'
        · have hlater := le_start_of_mem_shown ho'
          have hpos := List.length_pos_iff.mpr (htoken s (List.mem_cons_self ..))
          exact .inr (by dsimp only; omega)
      case isFalse hs =>
        obtain ⟨hb, hhead, hfirst⟩ :=
          leading_first (fun s hs => htoken s (List.mem_cons_of_mem _ hs)) h
        have hskip : ∀ {p : Property}, Bucket.of p = b →
            p.shown pos (s :: row) = p.shown (pos + s.gap.length + s.token.length) row := by
          intro p hp
          have hne : s.property ≠ p := fun heq => hs (heq ▸ hp)
          rw [Property.shown, if_neg hne, List.nil_append]
        refine ⟨hb, by rw [hskip hb]; exact hhead, fun p hp o' ho' => hfirst p hp o' ?_⟩
        rwa [hskip hp] at ho'

theorem foldl_earlier_le : ∀ (os : List Occurrence) (o : Occurrence), ∀ x ∈ o :: os,
    (os.foldl .earlier o).start ≤ x.start
  | [], _, _, hx => by rw [List.mem_singleton.mp hx]; exact Nat.le_refl _
  | o' :: os, o, x, hx => by
      have hstep : (o.earlier o').start ≤ o.start ∧ (o.earlier o').start ≤ o'.start := by
        rw [Occurrence.earlier]
        split <;> omega
      have hfold := foldl_earlier_le os (o.earlier o')
      have hhead := hfold _ (List.mem_cons_self ..)
      rw [List.foldl_cons]
      rcases List.mem_cons.mp hx with rfl | hx
      · exact hhead.trans hstep.1
      · rcases List.mem_cons.mp hx with rfl | hx
        · exact hhead.trans hstep.2
        · exact hfold x (List.mem_cons_of_mem _ hx)

/-- The earliest token of a bucket is the first one in the row. -/
theorem firstOccurrence?_members {text : List Char} (h : Shows row rest text)
    (htoken : ∀ s ∈ row, s.token ≠ []) :
    firstOccurrence? b.members text = leading b 0 row := by
  cases hlead : leading b 0 row with
  | none =>
      cases hfound : firstOccurrence? b.members text with
      | none => rfl
      | some o =>
          obtain ⟨p, hp, ho⟩ := exists_of_firstOccurrence hfound
          rw [h.occurrences_eq, shown_of_leading_eq_none (Bucket.mem_members.mp hp) hlead] at ho
          cases ho
  | some o =>
      obtain ⟨hb, hhead, hfirst⟩ := leading_first htoken hlead
      have hmem : o ∈ b.members.filterMap fun p => p.occurrence? text :=
        List.mem_filterMap.mpr ⟨o.property, Bucket.mem_members.mpr hb, by
          rw [Property.occurrence?, h.occurrences_eq, hhead]⟩
      rw [firstOccurrence?]
      split
      case h_1 hnil =>
        rw [hnil] at hmem
        cases hmem
      case h_2 o' os hos =>
        rw [hos] at hmem
        have hle := foldl_earlier_le os o' o hmem
        have hfound := foldl_earlier_mem os o'
        rw [← hos] at hfound
        obtain ⟨p, hp, hocc⟩ := List.mem_filterMap.mp hfound
        rw [Property.occurrence?, h.occurrences_eq] at hocc
        rcases hfirst p (Bucket.mem_members.mp hp) _ (List.mem_of_mem_head? hocc) with heq | hlt
        · rw [heq]
        · exact absurd hle (Nat.not_le.mpr hlt)

variable {m : SpacingMapping}

theorem settle_of_leading_eq_none : ∀ {row : List Stretch} {pos : Nat},
    leading (Bucket.of m.property) pos row = none → settle m row = row
  | [], _, _ => rfl
  | s :: row, pos, h => by
      rw [leading] at h
      split at h
      case isTrue => cases h
      case isFalse hs => rw [settle, if_neg hs, settle_of_leading_eq_none h]

/-- In the text of the row, the token of the mapping takes the place of the first one. -/
theorem assembled_settle (rest : List Char) {o : Occurrence} : ∀ {row : List Stretch} {pos : Nat},
    leading (Bucket.of m.property) pos row = some o → ∃ a b,
      assembled row rest = a ++ (o.token ++ b) ∧ o.start = pos + a.length ∧
        assembled (settle m row) rest = a ++ (m.token.toList ++ b)
  | s :: row, pos, h => by
      rw [leading] at h
      split at h
      case isTrue hs =>
        cases h
        exact ⟨s.gap, assembled row rest, rfl, rfl, by rw [settle, if_pos hs]; rfl⟩
      case isFalse hs =>
        obtain ⟨a, b, heq, hstart, hsettle⟩ := assembled_settle rest h
        refine ⟨s.gap ++ (s.token ++ a), b, ?_, ?_, ?_⟩
        · rw [assembled, heq]
          simp only [List.append_assoc]
        · rw [hstart]
          simp only [List.length_append]
          omega
        · rw [settle, if_neg hs, assembled, hsettle]
          simp only [List.append_assoc]

/-- The edit puts the token of the mapping in the place of the first one of its bucket. -/
theorem after_spacingEdit (h : Shows row rest (assembled row rest))
    (htoken : ∀ s ∈ row, s.token ≠ []) (htrim : trim m.token.toList = m.token.toList)
    (hne : m.token.toList ≠ []) :
    (spacingEdit m).after (assembled row rest) = assembled (settle m row) rest := by
  have hempty : m.token.toList.isEmpty = false := by simpa using hne
  rw [Edit.after, spacingEdit, htrim]
  simp only [hempty, Bool.false_eq_true, if_false, Option.bind_eq_bind,
    firstOccurrence?_members h htoken]
  cases hlead : leading (Bucket.of m.property) 0 row with
  | none => rw [settle_of_leading_eq_none hlead]; rfl
  | some o =>
      obtain ⟨a, b, heq, hstart, hsettle⟩ := assembled_settle rest hlead
      rw [Nat.zero_add] at hstart
      rw [hsettle, heq, Option.bind_some]
      split
      case isTrue hsame => rw [← hsame]; rfl
      case isFalse => rw [Option.map_some, Option.getD_some, Occurrence.replaceIn_append hstart]

/-- What may stand behind a token may stand there after the edit. -/
theorem head?_assembled_settle (h : Cut false row rest) :
    (assembled (settle m row) rest).head? = (assembled row rest).head? := by
  cases row with
  | nil => rfl
  | cons s row =>
      cases hgap : s.gap with
      | nil =>
          have hlead := h.2.1
          rw [hgap] at hlead
          cases hlead
      | cons c gap =>
          rw [settle]
          split
          · rw [assembled, assembled, written, hgap]; rfl
          · rw [assembled, assembled, hgap]; rfl

/-- The edit of a mapping leaves a row. -/
theorem cut_settle (htoken : m.property.isToken m.token.toList = true) :
    ∀ {row : List Stretch} {atLead : Bool}, Cut atLead row rest → Cut atLead (settle m row) rest
  | [], _, h => h
  | s :: row, _, ⟨hgap, hlead, hword, htrail, hrow⟩ => by
      rw [settle]
      split
      · exact ⟨hgap, hlead, htoken, htrail, hrow⟩
      · exact ⟨hgap, hlead, hword, by rwa [head?_assembled_settle hrow], cut_settle htoken hrow⟩

theorem token_ne_nil_of_cut : ∀ {row : List Stretch} {atLead : Bool}, Cut atLead row rest →
    ∀ s ∈ row, s.token ≠ []
  | s :: row, _, ⟨_, _, hword, _, hrow⟩, t, ht => by
      rcases List.mem_cons.mp ht with rfl | ht
      · exact (Property.isTokenChar_of_isToken hword).1
      · exact token_ne_nil_of_cut hrow t ht

end

/-! ## The row of edits -/

section

variable {row : List Stretch} {win : Bucket → Option SpacingMapping} {m : SpacingMapping}

/-- The mapping that is chosen for a bucket is one of it. -/
def Fits (win : Bucket → Option SpacingMapping) : Prop :=
  ∀ b m, win b = some m → Bucket.of m.property = b

theorem Fits.update_none (h : Fits win) (b : Bucket) : Fits (Function.update win b none) := by
  intro b' m hm
  by_cases heq : b' = b
  · rw [heq, Function.update_self] at hm
    cases hm
  · rw [Function.update_of_ne heq] at hm
    exact h b' m hm

theorem settled_none : ∀ row : List Stretch, settled (fun _ => none) row = row
  | [] => rfl
  | s :: row => by
      rw [settled]
      have hnone : Function.update (fun _ : Bucket => (none : Option SpacingMapping))
          (Bucket.of s.property) none = fun _ => none := Function.update_eq_self ..
      rw [hnone, settled_none row]

/-- One more mapping, of a bucket that has none yet. -/
theorem settle_settled : ∀ {row : List Stretch} {win : Bucket → Option SpacingMapping},
    Fits win → win (Bucket.of m.property) = none →
      settle m (settled win row)
        = settled (Function.update win (Bucket.of m.property) (some m)) row
  | [], _, _, _ => rfl
  | s :: row, win, hfits, hnone => by
      rw [settled, settled, settle]
      by_cases hs : Bucket.of s.property = Bucket.of m.property
      · rw [hs, hnone]
        dsimp only
        rw [if_pos hs, Function.update_self, Function.update_idem, ← hnone, Function.update_eq_self]
      · have hkept : ∀ t, (∃ m', win (Bucket.of s.property) = some m' ∧ t = written m' s) ∨ t = s →
            Bucket.of t.property ≠ Bucket.of m.property := by
          rintro t (⟨m', hm', rfl⟩ | rfl)
          · rw [written, hfits _ _ hm']
            exact hs
          · exact hs
        rw [Function.update_of_ne hs, Function.update_comm (Ne.symm hs),
          ← settle_settled (hfits.update_none _)
            (by rw [Function.update_of_ne (Ne.symm hs), hnone])]
        cases hwin : win (Bucket.of s.property) with
        | none => exact if_neg (hkept s (.inr rfl))
        | some m' => exact if_neg (hkept _ (.inl ⟨m', hwin, rfl⟩))

/-- A settled row is settled. -/
theorem settled_settled : ∀ {row : List Stretch} {win : Bucket → Option SpacingMapping},
    Fits win → settled win (settled win row) = settled win row
  | [], _, _ => rfl
  | s :: row, win, hfits => by
      cases hwin : win (Bucket.of s.property) with
      | none =>
          simp only [settled, hwin]
          rw [settled_settled (hfits.update_none _)]
      | some m =>
          have hbucket : Bucket.of (written m s).property = Bucket.of s.property :=
            hfits _ _ hwin
          simp only [settled, hwin, hbucket]
          rw [settled_settled (hfits.update_none _)]
          rfl

end

/-! ## The mappings that are acted on -/

/-- The mapping of a bucket among mappings of different buckets. -/
def chosen (ws : List SpacingMapping) (b : Bucket) : Option SpacingMapping :=
  ws.find? fun w => Bucket.of w.property = b

theorem fits_chosen (ws : List SpacingMapping) : Fits (chosen ws) := fun _ _ h => by
  simpa using List.find?_some h

theorem chosen_putWinner (m : SpacingMapping) (b : Bucket) : ∀ ws : List SpacingMapping,
    chosen (putWinner m ws) b = if Bucket.of m.property = b then some m else chosen ws b
  | [] => by
      rw [putWinner, chosen, List.find?_singleton]
      simp only [decide_eq_true_eq, chosen, List.find?_nil]
  | w :: ws => by
      have ih := chosen_putWinner m b ws
      simp only [chosen] at ih ⊢
      rw [putWinner]
      by_cases hw : Bucket.of w.property = Bucket.of m.property
      · rw [if_pos hw, List.find?_cons, List.find?_cons, hw]
        by_cases hb : Bucket.of m.property = b <;> simp [hb]
      · rw [if_neg hw, List.find?_cons, List.find?_cons, ih]
        by_cases hb : Bucket.of w.property = b
        · have hm : Bucket.of m.property ≠ b := fun heq => hw (hb.trans heq.symm)
          simp [hb, hm]
        · simp [hb]

/-- The mappings that are acted on are the last ones of the buckets. -/
theorem chosen_winners (ms : List SpacingMapping) : chosen (winners ms) = lastOf ms := by
  funext b
  induction ms using List.reverseRecOn with
  | nil => rfl
  | append_singleton ms m ih =>
      have hwinners : winners (ms ++ [m]) = putWinner m (winners ms) := by
        rw [winners, List.foldl_append]
        rfl
      rw [hwinners, chosen_putWinner, ih, lastOf, lastOf, List.filter_append, List.filter_singleton]
      by_cases hb : Bucket.of m.property = b <;> simp [hb]

theorem mem_of_lastOf {ms : List SpacingMapping} {b : Bucket} {m : SpacingMapping}
    (h : lastOf ms b = some m) : m ∈ ms :=
  (List.mem_filter.mp (List.mem_of_getLast? h)).1

/-- A mapping that is acted on is the last one of its bucket. -/
theorem lastOf_of_mem_winners {ms : List SpacingMapping} {w : SpacingMapping}
    (h : w ∈ winners ms) : lastOf ms (Bucket.of w.property) = some w := by
  rw [← chosen_winners]
  have hnodup := nodup_buckets_winners ms
  generalize winners ms = ws at h hnodup
  induction ws with
  | nil => cases h
  | cons v ws ih =>
      obtain ⟨hv, hnodup⟩ := List.nodup_cons.mp hnodup
      rcases List.mem_cons.mp h with rfl | h
      · exact List.find?_cons_of_pos (by simp)
      · refine (List.find?_cons_of_neg fun heq => hv ?_).trans (ih h hnodup)
        exact List.mem_map.mpr ⟨w, h, (of_decide_eq_true heq).symm⟩

/-! ## The pass -/

/-- The token of the mapping is what is written for some number of pixels of its property. -/
def IsWritten (m : SpacingMapping) : Prop := ∃ n, m.token = m.property.token n

theorem IsWritten.isToken {m : SpacingMapping} (h : IsWritten m) :
    m.property.isToken m.token.toList = true := by
  obtain ⟨n, h⟩ := h
  rw [h]
  exact m.property.isToken_token n

theorem IsWritten.trim_eq {m : SpacingMapping} (h : IsWritten m) :
    trim m.token.toList = m.token.toList := by
  obtain ⟨n, h⟩ := h
  rw [h]
  exact trim_token _ n

variable {row : List Stretch} {rest : List Char}

/-- A row of edits of different buckets settles the row of tokens. -/
theorem runEdits_spacing (hcut : Cut true row rest) (ws : List SpacingMapping)
    (hnodup : (buckets ws).Nodup) (hwritten : ∀ w ∈ ws, IsWritten w) :
    Cut true (settled (chosen ws) row) rest ∧
      (runEdits (ws.map spacingEdit) (assembled row rest)).1
        = assembled (settled (chosen ws) row) rest := by
  induction ws using List.reverseRecOn with
  | nil =>
      have hnone : chosen [] = fun _ => none := rfl
      rw [hnone, settled_none]
      exact ⟨hcut, rfl⟩
  | append_singleton ws m ih =>
      rw [buckets, List.map_append, List.map_singleton, List.nodup_append] at hnodup
      obtain ⟨hnodup, -, hnew⟩ := hnodup
      obtain ⟨hcut', hrun⟩ := ih hnodup fun w hw => hwritten w (List.mem_append_left _ hw)
      have hm : IsWritten m := hwritten m (List.mem_append_right _ (List.mem_singleton_self m))
      have hfree : chosen ws (Bucket.of m.property) = none :=
        List.find?_eq_none.mpr fun w hw heq =>
          hnew _ (List.mem_map_of_mem hw) _ (List.mem_singleton_self _) (of_decide_eq_true heq)
      have hchosen : chosen (ws ++ [m])
          = Function.update (chosen ws) (Bucket.of m.property) (some m) := by
        funext b
        rw [chosen, List.find?_append, List.find?_singleton]
        by_cases hb : b = Bucket.of m.property
        · rw [hb, Function.update_self, ← chosen, hfree]
          simp
        · rw [Function.update_of_ne hb, ← chosen]
          simp [Ne.symm hb]
      rw [hchosen, ← settle_settled (fits_chosen ws) hfree]
      refine ⟨cut_settle hm.isToken hcut', ?_⟩
      rw [List.map_append, runEdits_append, hrun, List.map_singleton, runEdits_cons]
      exact after_spacingEdit hcut'.shows (token_ne_nil_of_cut hcut') hm.trim_eq
        (Property.isTokenChar_of_isToken hm.isToken).1

theorem spaced_assembled (hcut : Cut true row rest) {ms : List SpacingMapping}
    (hwritten : ∀ b m, lastOf ms b = some m → IsWritten m) :
    Cut true (settled (lastOf ms) row) rest ∧
      spaced ms (assembled row rest) = assembled (settled (lastOf ms) row) rest := by
  rw [← chosen_winners]
  exact runEdits_spacing hcut (winners ms) (nodup_buckets_winners ms) fun w hw =>
    hwritten _ _ (lastOf_of_mem_winners hw)

/-- Mappings whose tokens are written for numbers of pixels settle the row that a text is: the first
token of each bucket becomes the one of the bucket's last mapping, and all other tokens and all that
stands between them stay as they are. So it is of no account which other mappings there are and in
which order they come, and a second pass changes nothing. -/
theorem spaced_settled {ms : List SpacingMapping} (hms : ∀ m ∈ ms, IsWritten m)
    (text : List Char) :
    (∃ row rest, Shows row rest text ∧ Shows (settled (lastOf ms) row) rest (spaced ms text)) ∧
      (∀ ms', lastOf ms' = lastOf ms → spaced ms' text = spaced ms text) ∧
      spaced ms (spaced ms text) = spaced ms text := by
  have hwritten : ∀ b m, lastOf ms b = some m → IsWritten m := fun _ _ h => hms _ (mem_of_lastOf h)
  obtain ⟨row, rest, rfl, hcut⟩ := exists_row text true
  obtain ⟨hcut', hspaced⟩ := spaced_assembled hcut hwritten
  refine ⟨⟨row, rest, hcut.shows, hspaced ▸ hcut'.shows⟩, fun ms' hlast => ?_, ?_⟩
  · rw [hspaced, (spaced_assembled hcut (hlast ▸ hwritten)).2, hlast]
  · have hfits : Fits (lastOf ms) := chosen_winners ms ▸ fits_chosen (winners ms)
    rw [hspaced, (spaced_assembled hcut' hwritten).2, settled_settled hfits]

theorem spaced_settled_axes :
    let ms : List SpacingMapping := [⟨"a", .height, "h-9"⟩, ⟨"b", .padding, "p-4"⟩,
      ⟨"c", .paddingX, "px-[17px]"⟩, ⟨"d", .height, "h-10"⟩]
    (∀ m ∈ ms, IsWritten m) ∧
      spaced ms "h-4 py-2 h-8 px-1 w-1".toList = "h-10 px-[17px] h-8 px-1 w-1".toList ∧
      spaced [⟨"d", .height, "h-10"⟩, ⟨"c", .paddingX, "px-[17px]"⟩] "h-4 py-2 h-8 px-1 w-1".toList
        = "h-10 px-[17px] h-8 px-1 w-1".toList ∧
      spaced ms "h-10 px-[17px] h-8 px-1 w-1".toList = "h-10 px-[17px] h-8 px-1 w-1".toList := by
  intro ms
  have hwritten : ∀ m ∈ ms, IsWritten m := by
    simp only [ms, List.forall_mem_cons, List.not_mem_nil, false_imp_iff, implies_true, and_true]
    exact ⟨⟨36, by decide⟩, ⟨16, by decide⟩, ⟨17, by decide⟩, ⟨40, by decide⟩⟩
  have htext : spaced ms "h-4 py-2 h-8 px-1 w-1".toList
      = "h-10 px-[17px] h-8 px-1 w-1".toList := by decide
  obtain ⟨-, hothers, htwice⟩ := spaced_settled hwritten "h-4 py-2 h-8 px-1 w-1".toList
  rw [htext] at hothers htwice
  refine ⟨hwritten, htext, hothers _ ?_, htwice⟩
  funext b
  cases b <;> rfl

end DesignTokens.Rewrite
