import MplWorkbench.Document.Basic

/-! What a document remembers.

A document may be edited, cloned and read in any order. Only a text that has been
read has a parse to remember, and whatever happens then, the parse stays that of
the text that was read last (`Document.Coherent`). A cache sees no texts, only
versions; that equal versions mean equal texts is the invariant behind all of it
(`Document.Sound`).

`coherent_after`: every history of a document is told by its operations. A document
is a buffer with the cache that is used with it, so what is asked of a cache alone,
`refresh` and `invalidate`, is an operation too. -/
namespace MplWorkbench

/-! ### Histories -/

namespace Document

inductive Operation where
  | edit (span : Span) (replacement : String)
  | setText (text : String)
  /-- Goes on with a clone. -/
  | clone
  /- what reads the parse of the current text -/
  | parse | root | diagnostics | definition (offset : Nat) | completions
  /- what is asked of the cache -/
  | refresh | invalidate
deriving DecidableEq

namespace Operation

/-- The document after the operation. A refused edit leaves it as it is. -/
def apply (op : Operation) (d : Document) : Document :=
  match op with
  | .edit span replacement =>
    match d.edit span replacement with
    | .ok d => d
    | .error _ => d
  | .setText text => d.setText text
  | .clone => d
  | .parse => d.parse.2
  | .root => d.root.2
  | .diagnostics => d.diagnostics.2
  | .definition offset => (d.definitionAt? offset).2
  | .completions => d.completions.2
  | .refresh => { d with cache := (d.cache.refresh d.buffer).2 }
  | .invalidate => { d with cache := d.cache.invalidate }

/-- Does the operation see to the parse of the current text? -/
def reads : Operation → Bool
  | .parse | .root | .diagnostics | .definition _ | .completions | .refresh => true
  | _ => false

/-- The text that the operation puts in place of `text`; none if it is no change, or refused. -/
def change? (op : Operation) (text : String) : Option String :=
  match op with
  | .edit span replacement => ((Buffer.ofText text).edit span replacement).toOption.map (·.text)
  | .setText text => some text
  | _ => none

end Operation

def after (d : Document) (ops : List Operation) : Document := ops.foldl (fun d op => op.apply d) d

/-- The text after the operations. -/
def textAfter (text : String) (ops : List Operation) : String :=
  ops.foldl (fun text op => (op.change? text).getD text) text

/-- The number of changes that the operations make to the text. -/
def changes (text : String) : List Operation → Nat
  | [] => 0
  | op :: ops =>
    match op.change? text with
    | some text => changes text ops + 1
    | none => changes text ops

/-- What a document with this buffer and these options is after the operations. -/
structure Coherent (b : Buffer) (o : Options) (ops : List Operation) (d : Document) : Prop where
  text_eq : d.text = textAfter b.text ops
  version_eq : d.version = b.version + changes b.text ops
  parse_eq : d.parse.1 = MplWorkbench.parse d.text o
  read_eq : ∀ {α : Type} (query : Parse → α),
    (d.read query).1 = query (MplWorkbench.parse d.text o)
  /-- Nothing has been read yet. -/
  unread : (∀ op ∈ ops, op.reads = false) → d.cached? = none ∧ d.freshness = .empty
  /-- The last reading, and what has been done since. -/
  read : ∀ before op since, ops = before ++ op :: since → op.reads →
    (∀ op ∈ since, op.reads = false) →
      d.cached? = some (MplWorkbench.parse (textAfter b.text before) o) ∧
      d.freshness =
        if changes (textAfter b.text before) since = 0 ∧ .invalidate ∉ since then .fresh else .stale
  refresh_iff : (d.cache.refresh d.buffer).1 ↔ d.freshness ≠ .fresh

variable {b : Buffer} {o : Options} {d : Document} {op : Operation} {ops : List Operation}
  {text : String}

/-! ### Changes -/

/-- An edit looks at the text only, and counts the version on. -/
theorem edit_eq (b : Buffer) (span : Span) (replacement : String) :
    b.edit span replacement = ((Buffer.ofText b.text).edit span replacement).map
      fun b' => ⟨b'.text, b.version + 1⟩ := by
  unfold Buffer.edit Buffer.ofText
  dsimp only
  split
  · rfl
  · split <;> rfl

/-- A change gives the text and counts the version on; nothing else touches the buffer. -/
theorem buffer_apply (op : Operation) (d : Document) :
    (op.apply d).buffer =
      match op.change? d.text with
      | some text => ⟨text, d.version + 1⟩
      | none => d.buffer := by
  cases op with
  | edit span replacement =>
    have hedit : d.edit span replacement = ((Buffer.ofText d.text).edit span replacement).map
        fun b' => { d with buffer := ⟨b'.text, d.version + 1⟩ } := by
      rw [edit, edit_eq, text]
      cases (Buffer.ofText d.buffer.text).edit span replacement <;> rfl
    rw [Operation.apply, hedit, Operation.change?]
    cases (Buffer.ofText d.text).edit span replacement <;> rfl
  | refresh | setText | clone | parse | root | diagnostics | definition | completions
  | invalidate => rfl

theorem buffer_after (d : Document) (ops : List Operation) :
    (d.after ops).buffer = ⟨textAfter d.text ops, d.version + changes d.text ops⟩ := by
  induction ops generalizing d with
  | nil => rfl
  | cons op ops ih =>
    have hbuffer := buffer_apply op d
    have htext : textAfter d.text (op :: ops) = textAfter ((op.change? d.text).getD d.text) ops :=
      rfl
    show ((op.apply d).after ops).buffer = _
    rw [ih, htext, changes, text, version]
    cases hchange : op.change? d.text with
    | none =>
      rw [hchange] at hbuffer
      rw [hbuffer]
      rfl
    | some text =>
      rw [hchange] at hbuffer
      rw [hbuffer, Nat.add_assoc, Nat.add_comm 1]
      rfl

/-! ### What equal versions mean -/

/-- The version that was parsed is no later than that of the text, and if it is the same, then so
is the text. -/
structure Sound (o : Options) (d : Document) : Prop where
  options_eq : d.cache.options = o
  le_version : ∀ v, d.cache.version? = some v → v ≤ d.version
  cached_eq : d.cache.version? = some d.version →
    d.cached? = some (MplWorkbench.parse d.text o)

theorem sound_start (b : Buffer) (o : Options) : Sound o ⟨b, .empty o⟩ :=
  ⟨rfl, by simp [Cache.empty], by simp [Cache.empty]⟩

theorem Sound.parse_eq (h : Sound o d) : d.parse =
    (MplWorkbench.parse d.text o,
      ⟨d.buffer, ⟨some (MplWorkbench.parse d.text o), some d.version, o⟩⟩) := by
  have hkept : (if d.cache.version? = some d.version then d.cache.parse? else none).getD
      (MplWorkbench.parse d.text d.cache.options) = MplWorkbench.parse d.text o := by
    split
    · next hversion =>
      have hcached : d.cache.parse? = _ := h.cached_eq hversion
      rw [hcached, Option.getD_some]
    · rw [h.options_eq, Option.getD_none]
  show (_, (⟨d.buffer, ⟨some _, some d.version, d.cache.options⟩⟩ : Document)) = _
  rw [← h.options_eq] at hkept ⊢
  exact congrArg (fun p => (p, (⟨d.buffer, ⟨some p, some d.version, d.cache.options⟩⟩ : Document)))
    hkept

/-- Whatever is read, the document goes on as one whose text was parsed. -/
theorem Sound.apply_of_reads (h : Sound o d) (hop : op.reads) : op.apply d = d.parse.2 := by
  cases op with
  | parse | root | diagnostics | definition | completions => rfl
  | edit | setText | clone | invalidate => contradiction
  | refresh =>
    show ({ d with cache := (d.cache.refresh d.buffer).2 } : Document) = d.parse.2
    unfold Cache.refresh
    split
    · rfl
    · next hfresh =>
      obtain ⟨buffer, parse?, version?, options⟩ := d
      have hversion : version? = some buffer.version := by
        simp only [Cache.isOutdated, Cache.freshness] at hfresh
        split at hfresh
        · exact absurd rfl hfresh
        · split at hfresh
          · assumption
          · exact absurd rfl hfresh
      have hcached : parse? = _ := h.cached_eq hversion
      rw [h.parse_eq, hversion, hcached, ← h.options_eq]
      rfl

/-- Without reading, the parse stays, and so does its version until it is forgotten. -/
theorem cache_apply (d : Document) (hop : op.reads = false) : (op.apply d).cache =
    if op = .invalidate then d.cache.invalidate else d.cache := by
  cases op with
  | edit span replacement =>
    have hedit : ∀ d', d.edit span replacement = .ok d' → d'.cache = d.cache := by
      intro d' hd
      rw [edit] at hd
      cases hb : d.buffer.edit span replacement with
      | error => rw [hb] at hd; contradiction
      | ok b => rw [hb] at hd; exact Except.ok.inj hd ▸ rfl
    rw [if_neg Operation.noConfusion, Operation.apply]
    split
    · next d' hd => exact hedit d' hd
    · rfl
  | setText | clone | invalidate => rfl
  | parse | root | diagnostics | definition | completions | refresh => contradiction

theorem Sound.apply (h : Sound o d) (op : Operation) : Sound o (op.apply d) := by
  cases hop : op.reads with
  | true =>
    rw [h.apply_of_reads hop, h.parse_eq]
    exact ⟨rfl, fun v hv => Nat.le_of_eq (Option.some.inj hv).symm, fun _ => rfl⟩
  | false =>
    have hcache := cache_apply d hop
    have hbuffer := buffer_apply op d
    have hoptions : (op.apply d).cache.options = o := by
      rw [hcache]
      split <;> exact h.options_eq
    have hversion : ∀ v, (op.apply d).cache.version? = some v →
        d.cache.version? = some v ∧ (op.apply d).cached? = d.cached? := by
      intro v hv
      rw [cached?, hcache] at *
      split at hv
      · contradiction
      · next hne => exact ⟨hv, by rw [if_neg hne]; rfl⟩
    cases hchange : op.change? d.text with
    | none =>
      rw [hchange] at hbuffer
      refine ⟨hoptions, fun v hv => ?_, fun hv => ?_⟩
      · rw [version, hbuffer]
        exact h.le_version v (hversion v hv).1
      · rw [version, hbuffer] at hv
        rw [(hversion _ hv).2, text, hbuffer]
        exact h.cached_eq (hversion _ hv).1
    | some text =>
      rw [hchange] at hbuffer
      have hle : ∀ v, (op.apply d).cache.version? = some v → v ≤ d.version :=
        fun v hv => h.le_version v (hversion v hv).1
      refine ⟨hoptions, fun v hv => ?_, fun hv => ?_⟩
      · rw [version, hbuffer]
        exact Nat.le_succ_of_le (hle v hv)
      · rw [version, hbuffer] at hv
        exact absurd (hle _ hv) (Nat.not_succ_le_self _)

theorem Sound.after (h : Sound o d) (ops : List Operation) : Sound o (d.after ops) := by
  induction ops generalizing d with
  | nil => exact h
  | cons op ops ih => exact ih (h.apply op)

/-! ### Since the last reading -/

theorem cache_after (d : Document) (hops : ∀ op ∈ ops, op.reads = false) :
    (d.after ops).cache = if .invalidate ∈ ops then d.cache.invalidate else d.cache := by
  induction ops generalizing d with
  | nil => rfl
  | cons op ops ih =>
    obtain ⟨hop, hrest⟩ := List.forall_mem_cons.1 hops
    show ((op.apply d).after ops).cache = _
    rw [ih _ hrest, cache_apply d hop]
    by_cases hhere : op = .invalidate
    · subst hhere
      rw [if_pos rfl, if_pos List.mem_cons_self]
      split <;> rfl
    · simp only [List.mem_cons, Ne.symm hhere, false_or, if_neg hhere]

/-- A parse that was made and not read again is fresh as long as nothing has changed and it has
not been forgotten. -/
theorem freshness_after {p : Parse} (hops : ∀ op ∈ ops, op.reads = false)
    (hcached : d.cached? = some p) (hversion : d.cache.version? = some d.version) :
    (d.after ops).cached? = some p ∧ (d.after ops).freshness =
      if changes d.text ops = 0 ∧ .invalidate ∉ ops then .fresh else .stale := by
  have hcache := cache_after d hops
  have hbuffer := buffer_after d ops
  have hparse : (d.after ops).cached? = some p := by
    rw [cached?, hcache]
    split <;> exact hcached
  have hkept : (d.after ops).cache.parse? = some p := hparse
  refine ⟨hparse, ?_⟩
  rw [freshness, Cache.freshness, hkept, hbuffer]
  dsimp only
  congr 1
  rw [hcache]
  by_cases hforgotten : Operation.invalidate ∈ ops
  · simp [hforgotten, Cache.invalidate]
  · simp only [hforgotten, if_false, not_false_eq_true, and_true, hversion, Option.some.injEq]
    exact propext ⟨fun h => by omega, fun h => by omega⟩

theorem after_append (d : Document) (ops ops' : List Operation) :
    d.after (ops ++ ops') = (d.after ops).after ops' := List.foldl_append

end Document

open Document in
/-- Every history of a buffer with a new cache, and so of a new document, keeps to its
operations. -/
theorem coherent_after (b : Buffer) (o : Options) (ops : List Operation) :
    Coherent b o ops (after ⟨b, .empty o⟩ ops) := by
  have hsound := (sound_start b o).after ops
  have hbuffer := buffer_after ⟨b, .empty o⟩ ops
  have hparse : (after ⟨b, .empty o⟩ ops).parse.1 = _ := congrArg Prod.fst hsound.parse_eq
  refine ⟨?text, ?version, hparse, ?reading, ?unread, ?read, ?refresh⟩
  case text => rw [text, hbuffer]; rfl
  case version => rw [version, hbuffer]; rfl
  case reading =>
    intro α query
    exact congrArg query hparse
  case unread =>
    intro hops
    have hcache := cache_after ⟨b, .empty o⟩ hops
    have hnone : (after ⟨b, .empty o⟩ ops).cache.parse? = none := by
      rw [hcache]
      split <;> rfl
    refine ⟨hnone, ?_⟩
    rw [freshness, Cache.freshness, hnone]
  case read =>
    rintro before op since rfl hop hsince
    have hbefore := (sound_start b o).after before
    have htext : (after ⟨b, .empty o⟩ before).text = textAfter b.text before := by
      rw [text, buffer_after]
      rfl
    have hread := (hbefore.apply_of_reads hop).trans (congrArg Prod.snd hbefore.parse_eq)
    rw [after_append, ← htext]
    show cached? (after (op.apply _) since) = _ ∧ freshness (after (op.apply _) since) = _
    rw [hread]
    exact freshness_after hsince rfl rfl
  case refresh =>
    generalize after ⟨b, .empty o⟩ ops = d
    unfold Cache.refresh Cache.isOutdated
    split
    · next h => exact iff_of_true rfl (bne_iff_ne.1 h)
    · next h => exact iff_of_false Bool.false_ne_true fun hne => h (bne_iff_ne.2 hne)

end MplWorkbench
