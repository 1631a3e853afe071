import MplWorkbench.Lexeme.Name
import MplWorkbench.Lexeme.Number
import MplWorkbench.Lexeme.Region
import MplWorkbench.Proofs.Lexeme.Classes
import MplWorkbench.Proofs.Text.Passage

/-! The shapes of lexemes.

A lexeme is a stretch of text. It ends where reading goes on, but for spaces
after a comment (`Covers`). A number or an access either makes sense, and
nothing is reported, or is one error over all that was read. -/
namespace MplWorkbench.Lexeme

open Cursor

variable {c : Cursor} {l : Lexeme}

/-! ### What a lexeme covers -/

/-- Reading the lexeme at `c` takes some characters, which are its terminal, and then spaces. -/
def Covers (c : Cursor) (l : Lexeme) : Prop :=
  ∃ word gap e, c.Takes word e ∧ word ≠ [] ∧ l.stop = e.offset ∧ e.Takes gap l.after ∧
    ∀ x ∈ gap, isSpace x

theorem Advances.covers (h : Advances c l) (hc : c.rest ≠ []) (hstop : l.stop = l.after.offset) :
    Covers c l := by
  obtain ⟨x, w, hw⟩ := h.reaches.takes_of_advance hc
  exact ⟨x :: w, [], l.after, hw, List.cons_ne_nil _ _, hstop, .refl _, by simp⟩

/-- The comment's end is where its last character that is no space ends. -/
theorem commentBody_takes {stop : Nat} {rest gap : List Char} {p : Position} {e : Cursor}
    (hstop : stop = e.offset) (hgap : e.Takes gap ⟨rest, p⟩) (hspace : ∀ x ∈ gap, isSpace x) :
    ∃ word gap' e', e.Takes word e' ∧ (commentBody stop rest p).1 = e'.offset ∧
      e'.Takes gap' (commentBody stop rest p).2 ∧ (∀ x ∈ gap', isSpace x) ∧
      (∀ x ∈ word, isBreak x = false) ∧ ∀ x ∈ word.getLast?, isSpace x = false := by
  induction rest generalizing stop gap p e with
  | nil => exact ⟨[], gap, e, .refl _, hstop, hgap, hspace, by simp, by simp⟩
  | cons x xs ih =>
    rw [commentBody]
    by_cases hbreak : isBreak x
    · rw [if_pos hbreak]
      exact ⟨[], gap, e, .refl _, hstop, hgap, hspace, by simp, by simp⟩
    · rw [if_neg hbreak]
      have hone : Takes ⟨x :: xs, p⟩ [x] ⟨xs, p.past x xs.head?⟩ := takes_advance rfl
      have hnext : e.Takes (gap ++ [x]) ⟨xs, p.past x xs.head?⟩ := hgap.trans hone
      by_cases hx : x == ' ' || x == '\t'
      · dsimp only
        rw [if_pos hx]
        refine ih hstop hnext fun y hy => ?_
        rcases List.mem_append.1 hy with hy | hy
        · exact hspace y hy
        · rw [List.mem_singleton.1 hy]
          exact hx
      · dsimp only
        rw [if_neg hx]
        have hnone : Takes ⟨xs, p.past x xs.head?⟩ [] ⟨xs, p.past x xs.head?⟩ := .refl _
        obtain ⟨word, gap', e', hword, hend, hgap', hspace', hbreaks, hlast⟩ :=
          ih rfl hnone (by simp)
        have hall := hnext.trans hword
        refine ⟨_, gap', e', hall, hend, hgap', hspace', fun y hy => ?_, fun y hy => ?_⟩
        · rcases List.mem_append.1 hy with hy | hy
          · rcases List.mem_append.1 hy with hy | hy
            · exact Bool.eq_false_iff.2 fun hbreak => Bool.eq_false_iff.1
                (isSpace_eq_false_of_isBreak hbreak) (hspace y hy)
            · rw [List.mem_singleton.1 hy]
              exact Bool.eq_false_iff.2 hbreak
          · exact hbreaks y hy
        · rw [List.getLast?_append] at hy
          cases hword : word.getLast? with
          | none =>
            rw [hword, List.getLast?_concat] at hy
            obtain rfl := Option.some.inj hy
            exact Bool.eq_false_iff.2 hx
          | some z => exact hlast y (by rwa [hword] at hy ⊢)

/-- The text of a comment, up to its last character that is no space. -/
theorem comment_takes (hc : c.isAt (· == '#')) :
    ∃ word gap e, c.Takes ('#' :: word) e ∧ (comment c).stop = e.offset ∧
      e.Takes gap (comment c).after ∧ (∀ x ∈ gap, isSpace x) ∧
      (∀ x ∈ word, isBreak x = false) ∧ ∀ x ∈ word.getLast?, isSpace x = false := by
  obtain ⟨x, r, hx, heq⟩ := rest_eq_of_isAt hc
  obtain rfl := eq_of_beq heq
  have hnone : c.advance.Takes [] ⟨c.advance.rest, c.advance.position⟩ := .refl _
  obtain ⟨word, gap, e, hword, hbody⟩ := commentBody_takes rfl hnone (by simp)
  exact ⟨word, gap, e, (takes_advance hx).trans hword, hbody⟩

theorem comment_covers (hc : c.isAt (· == '#')) : Covers c (comment c) := by
  obtain ⟨word, gap, e, hword, hstop, hgap, hspace, -⟩ := comment_takes hc
  exact ⟨'#' :: word, gap, e, hword, List.cons_ne_nil _ _, hstop, hgap, hspace⟩

/-! ### Terminals that make sense, or do not -/

/-- The lexeme is one of these kinds, and nothing is reported, or one error as a whole. -/
def Sensible (start : Position) (kinds : List Kind) (l : Lexeme) : Prop :=
  (∃ kind ∈ kinds, l = upTo l.after kind []) ∨ ∃ defect, l = defective start defect l.after

theorem sensible_upTo {start : Position} {kinds : List Kind} {kind : Kind} {after : Cursor}
    (h : kind ∈ kinds) : Sensible start kinds (upTo after kind []) := .inl ⟨kind, h, rfl⟩

theorem sensible_defective (start : Position) (kinds : List Kind) (defect : Defect)
    (after : Cursor) : Sensible start kinds (defective start defect after) := .inr ⟨defect, rfl⟩

theorem number_sensible (c : Cursor) : Sensible c.position [.number, .real] (number c) := by
  have hnumber : Kind.number ∈ [Kind.number, Kind.real] := by decide
  have hreal : Kind.real ∈ [Kind.number, Kind.real] := by decide
  unfold number
  split
  · exact sensible_defective ..
  · split
    · unfold realTail
      repeat' split
      · exact sensible_defective ..
      · exact sensible_defective ..
      · exact sensible_defective ..
      · exact sensible_upTo hreal
    · split
      · unfold integerSuffix
        repeat' split
        · exact sensible_defective ..
        · exact sensible_defective ..
        · exact sensible_upTo hnumber
      · exact sensible_upTo hnumber

theorem access_sensible (c : Cursor) :
    Sensible c.position [.name, .nameRead, .nameWrite] (access c) := by
  simp only [access]
  split
  · refine sensible_upTo ?_
    split <;> decide
  · exact sensible_upTo (by decide)

theorem Sensible.stop_eq {start : Position} {kinds : List Kind} (h : Sensible start kinds l) :
    l.stop = l.after.offset := by
  rcases h with ⟨kind, -, h⟩ | ⟨defect, h⟩ <;> rw [h] <;> rfl

theorem Sensible.kind_mem {start : Position} {kinds : List Kind} (h : Sensible start kinds l) :
    l.kind ∈ kinds ++ [.someError] := by
  rcases h with ⟨kind, hkind, h⟩ | ⟨defect, h⟩ <;> rw [h]
  · exact List.mem_append_left _ hkind
  · exact List.mem_append_right _ (List.mem_singleton_self _)

/-! ### Members -/

/-- A member access has a name, or ends after its mark and lacks one. -/
theorem member_cases (c : Cursor) :
    (∃ after, memberName? (memberMark c).2 = some after ∧
        member c = upTo after (memberMark c).1 []) ∨
      (memberName? (memberMark c).2 = none ∧ member c = upTo (memberMark c).2 (memberMark c).1
        [Defect.noMemberName.missingAt (memberMark c).2.offset]) := by
  cases h : memberName? (memberMark c).2 with
  | some after => exact .inl ⟨after, rfl, by simp only [member, h]⟩
  | none => exact .inr ⟨rfl, by simp only [member, h]⟩

theorem memberMark_cases (c : Cursor) :
    (memberMark c).1 = .nameMember ∧ (memberMark c).2 = c.advance ∨
      ((memberMark c).1 = .nameReadMember ∨ (memberMark c).1 = .nameWriteMember) ∧
        (c.advance.isAt fun x => x == '@' || x == '!') ∧ (memberMark c).2 = c.advance.advance := by
  unfold memberMark
  by_cases hread : c.advance.isAt (· == '@')
  · obtain ⟨x, r, hx, hread'⟩ := rest_eq_of_isAt hread
    refine .inr ⟨.inl ?_, ?_, ?_⟩ <;> simp [hread, isAt_of_rest_eq hx, hread']
  · by_cases hwrite : c.advance.isAt (· == '!')
    · obtain ⟨x, r, hx, hwrite'⟩ := rest_eq_of_isAt hwrite
      refine .inr ⟨.inr ?_, ?_, ?_⟩ <;> simp [hread, hwrite, isAt_of_rest_eq hx, hwrite']
    · exact .inl (by simp [hread, hwrite])

/-! ### Access marks -/

/-- The access marks that a name of this kind begins with. -/
def accessMark : Kind → List Char
  | .nameRead => ['@']
  | .nameWrite => ['!']
  | .nameMember => ['.']
  | .nameReadMember => ['.', '@']
  | .nameWriteMember => ['.', '!']
  | _ => []

@[simp] theorem byteSize_accessMark (kind : Kind) :
    byteSize (accessMark kind) = kind.sigilSize := by
  cases kind <;> rfl

/-- Between the cursors stands the access mark of the kind, and then whatever follows. -/
def Marked (kind : Kind) (c e : Cursor) : Prop := ∃ m, c.Takes (accessMark kind) m ∧ m.Reaches e

theorem marked_name {e : Cursor} (h : c.Reaches e) : Marked .name c e := ⟨c, .refl c, h⟩

theorem memberMark_takes (hc : c.isAt (· == '.')) :
    c.Takes (accessMark (memberMark c).1) (memberMark c).2 := by
  obtain ⟨x, r, hx, heq⟩ := rest_eq_of_isAt hc
  obtain rfl := eq_of_beq heq
  unfold memberMark
  by_cases hread : c.advance.isAt (· == '@')
  · obtain ⟨y, r', hy, heq⟩ := rest_eq_of_isAt hread
    obtain rfl := eq_of_beq heq
    simp only [hread, if_true]
    exact (takes_advance hx).trans (takes_advance hy)
  · by_cases hwrite : c.advance.isAt (· == '!')
    · obtain ⟨y, r', hy, heq⟩ := rest_eq_of_isAt hwrite
      obtain rfl := eq_of_beq heq
      simp only [hread, hwrite, if_true]
      exact (takes_advance hx).trans (takes_advance hy)
    · simp only [hread, hwrite]
      exact takes_advance hx

theorem member_marked (hc : c.isAt (· == '.')) : Marked (member c).kind c (member c).after := by
  have hmark := memberMark_takes hc
  rcases member_cases c with ⟨after, hname, heq⟩ | ⟨-, heq⟩ <;> rw [heq]
  · exact ⟨_, hmark, (reaches_advance _).trans (reaches_memberName? hname)⟩
  · exact ⟨_, hmark, .refl _⟩

theorem access_marked (hc : c.isAt fun x => x == '@' || x == '!') :
    Marked (access c).kind c (access c).after := by
  obtain ⟨x, r, hx, hmark⟩ := rest_eq_of_isAt hc
  unfold access
  dsimp only
  split
  · refine ⟨c.advance, ?_, (reaches_advance _).trans (reaches_plainName _)⟩
    have hread : c.isAt (· == '@') = (x == '@') := isAt_of_rest_eq hx
    simp only [upTo, hread]
    rcases Bool.or_eq_true_iff.1 hmark with hx' | hx' <;> obtain rfl := eq_of_beq hx' <;>
      exact takes_advance hx
  · exact marked_name (reaches_advance c)

/-! ### Line breaks -/

theorem lineBreak_feed {r : List Char} (h : c.rest = '\n' :: r) :
    lineBreak c = upTo c.advance .lf [] := by
  have hfeed : c.isAt (· == '\n') := isAt_of_rest_eq h
  rw [lineBreak, if_pos hfeed]

theorem lineBreak_return {r : List Char} (h : c.rest = '\r' :: r) :
    lineBreak c = if r.head? = some '\n' then upTo c.advance.advance .crlf []
      else upTo c.advance .cr (returnDiagnostics c.position r) := by
  have hfeed : c.isAt (· == '\n') = false := isAt_of_rest_eq h
  have hnext : c.following = r.head? := by rw [following, h, List.tail_cons]
  rw [lineBreak, hfeed, if_neg Bool.false_ne_true, hnext, h, List.tail_cons]

/-- A line break is a line feed, a carriage return with a line feed, or a lone carriage return,
which is reported. -/
theorem lineBreak_cases (c : Cursor) :
    (c.isAt (· == '\n') ∧ lineBreak c = upTo c.advance .lf []) ∨
      (c.following = some '\n' ∧ lineBreak c = upTo c.advance.advance .crlf []) ∨
      lineBreak c = upTo c.advance .cr
        [Defect.loneReturn.within ⟨c.offset, c.offset + 1⟩] := by
  unfold lineBreak
  by_cases hfeed : c.isAt (· == '\n')
  · exact .inl ⟨hfeed, if_pos hfeed⟩
  · rw [if_neg hfeed]
    by_cases hnext : c.following = some '\n'
    · exact .inr (.inl ⟨hnext, if_pos hnext⟩)
    · rw [if_neg hnext]
      have hreturn : returnDiagnostics c.position c.rest.tail =
          [Defect.loneReturn.within ⟨c.offset, c.offset + 1⟩] := if_neg hnext
      exact .inr (.inr (by rw [hreturn]))

end MplWorkbench.Lexeme
