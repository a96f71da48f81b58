import StackLift.Proofs.Actions

/-!
# Entries of the table

A table changes one entry at a time. What has to be shown for that is how the new entry stands, and
that the others stand as before.
-/
namespace StackLift

variable {c : BlockId} {e' : Entry} {E : Error → Prop} {sc : Scope} {w : Work}

open BuildM

variable {b : BlockId} {e : Entry} {t : Table}

@[simp] theorem BlockId.index_inj : b.index = c.index ↔ b = c := by
  cases b
  cases c
  simp

/-- The table after block `b` got the entry `e`. -/
def Table.put (t : Table) (b : BlockId) (e : Entry) : Table :=
  { t with entries := t.entries.setIfInBounds b.index (some e) }

theorem Table.slot?_put (hb : b.index < t.entries.size) :
    (t.put b e).slot? c = if c = b then some e else t.slot? c := by
  unfold Table.slot? Table.put
  rw [Array.getElem?_setIfInBounds]
  by_cases hc : c = b
  · subst hc
    simp [hb]
  · have : b.index ≠ c.index := fun h => hc (BlockId.index_inj.1 h.symm)
    simp [hc, this]

theorem Table.lt_of_slot? (h : t.slot? b = some e) : b.index < t.entries.size := by
  unfold Table.slot? at h
  rw [Option.join_eq_some_iff] at h
  exact (Array.getElem?_eq_some_iff.1 h).1

theorem Table.slot?_put_cases (h : (t.put b e).slot? c = some e') :
    (c = b ∧ e' = e) ∨ (c ≠ b ∧ t.slot? c = some e') := by
  by_cases hb : b.index < t.entries.size
  · rw [Table.slot?_put hb] at h
    split at h
    · next hc => exact .inl ⟨hc, (Option.some.inj h).symm⟩
    · next hc => exact .inr ⟨hc, h⟩
  · have hsame : t.put b e = t := by
      rw [Table.put, Array.setIfInBounds_eq_of_size_le (Nat.le_of_not_lt hb)]
    rw [hsame] at h
    refine .inr ⟨?_, h⟩
    rintro rfl
    exact hb (Table.lt_of_slot? h)

theorem Table.slot?_blank (n : Nat) (b : BlockId) : (Table.blank n).slot? b = none := by
  simp only [Table.slot?, Table.blank, Array.getElem?_replicate]
  split <;> rfl

theorem Table.put_self (h : t.slot? b = some e) : t.put b e = t := by
  have hb := Table.lt_of_slot? h
  unfold Table.slot? at h
  rw [Option.join_eq_some_iff] at h
  have hentries : t.entries.setIfInBounds b.index (some e) = t.entries := by
    refine Array.ext_getElem? fun i => ?_
    rw [Array.getElem?_setIfInBounds]
    split
    · next hi =>
      subst hi
      exact h.symm
    · rfl
  unfold Table.put
  rw [hentries]

theorem Scene.open_put {S : Scene} (he : t.slot? b = some e) (hn : e'.node = e.node)
    (hp : e'.parsed = e.parsed) : S.Open (t.put b e') = S.Open t := by
  have hput := fun c => Table.slot?_put (c := c) (e := e') (Table.lt_of_slot? he)
  funext n
  refine propext (or_congr_left ⟨?_, ?_⟩)
  · rintro ⟨c, x, hx, hxp, rfl⟩
    rw [hput] at hx
    split at hx
    · cases hx
      exact ⟨b, e, he, hp ▸ hxp, hn.symm⟩
    · exact ⟨c, x, hx, hxp, rfl⟩
  · rintro ⟨c, x, hx, hxp, rfl⟩
    by_cases hc : c = b
    · subst hc
      rw [he] at hx
      cases hx
      exact ⟨c, e', by rw [hput, if_pos rfl], hp.trans hxp, hn⟩
    · exact ⟨c, x, by rw [hput, if_neg hc, hx], hxp, rfl⟩

theorem Table.Keeps.put (he : t.slot? b = some e) (hn : e'.node = e.node)
    (hp : e.parsed = true → e'.parsed = true) : t.Keeps (t.put b e') := by
  intro c x hx hxp
  rw [Table.slot?_put (Table.lt_of_slot? he)]
  by_cases hc : c = b
  · subst hc
    rw [he] at hx
    cases hx
    exact ⟨e', if_pos rfl, hp hxp, hn⟩
  · exact ⟨x, by rw [if_neg hc, hx], hxp, rfl⟩

theorem ensures_setEntry {Q : Unit → Work → Prop} (h : Q () { w with table := w.table.put b e }) :
    Ensures E (setEntry b e) sc w Q := h

theorem ensures_entry {Q : Entry → Work → Prop} (he : w.table.slot? b = some e) (h : Q e w) :
    Ensures E (entry b) sc w Q :=
  ensures_get_bind (ensures_pure_bind (ensures_demand he h))

section Put

variable {S : Scene} {cur cur' : Nat} {d d' : Debt} {g g' : Graph} {t : Table}

theorem Placed.put (h : Placed S cur d g t) (hb : b.index < S.blocks.size)
    (hhead : ∀ (l : Nat) e, S.blocks.loopHeaders[l]? = some b → t.slot? b = some e → e'.node = e.node)
    (hdist : ∀ c e, c ≠ b → t.slot? c = some e → e.node ≠ e'.node)
    (hexits : cur' ≤ S.blocks.exitBlock.index → cur ≤ S.blocks.exitBlock.index)
    (hnew : Stands S cur' d' g' (t.put b e') b e')
    (hold : ∀ {c e}, c ≠ b → t.slot? c = some e → Stands S cur' d' g' (t.put b e') c e) :
    Placed S cur' d' g' (t.put b e') := by
  have hput := fun c => Table.slot?_put (t := t) (c := c) (e := e') (h.size ▸ hb)
  refine ⟨by simp [Table.put, h.size], h.marks, ?_, ?_, fun hc => h.exits (hexits hc), ?_⟩
  · intro l c hc
    obtain ⟨e, he, hl⟩ := h.headers hc
    by_cases hcb : c = b
    · subst hcb
      exact ⟨e', by rw [hput, if_pos rfl], by rw [hhead l e hc he]; exact hl⟩
    · exact ⟨e, by rw [hput, if_neg hcb, he], hl⟩
  · intro c c' e e'' hc hc' hn
    rw [hput] at hc hc'
    by_cases h1 : c = b
    · by_cases h2 : c' = b
      · rw [h1, h2]
      · rw [if_pos h1] at hc
        rw [if_neg h2] at hc'
        cases hc
        exact absurd hn.symm (hdist c' _ h2 hc')
    · by_cases h2 : c' = b
      · rw [if_neg h1] at hc
        rw [if_pos h2] at hc'
        cases hc'
        exact absurd hn (hdist c _ h1 hc)
      · rw [if_neg h1] at hc
        rw [if_neg h2] at hc'
        exact h.distinct hc hc' hn
  · intro c e hc
    rw [hput] at hc
    by_cases hcb : c = b
    · subst hcb
      rw [if_pos rfl] at hc
      cases hc
      exact hnew
    · rw [if_neg hcb] at hc
      exact hold hcb hc

end Put

end StackLift
