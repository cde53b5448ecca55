import Mathlib.Data.Set.Insert
import Mathlib.Logic.Function.Basic
import Mathlib.Tactic.Common

/-!
# Blobs that rows name

A store keeps blobs apart from the rows that name them.  A transaction writes its rows at once and defers what it
cannot take back: a blob it has written is *made*, and is removed if the transaction is given up; a blob whose row it
has turned to another blob is *dropped*, and is removed when the transaction is over, however it ends.

`Exact` says that the blobs are those the rows name and no others.  A transaction that erases a row leaves the blob of
that row behind, and one that is given up removes the blobs of the rows it had turned to others.  Apart from these two
every transaction starts and ends with an exact store (`Ledger.settle`, `Pending.abandon`).
-/

namespace Blobs

structure Row (κ ο η : Type) where
  key : κ
  blob : ο
  digest : η

variable {κ ο β η : Type}

/-- The rows name each blob once, under its digest, and there is no other blob. -/
structure Exact (Suits : β → η → Prop) (rows : Set (Row κ ο η)) (blobs : ο → Option β) : Prop where
  key : ∀ r ∈ rows, ∀ r' ∈ rows, r.key = r'.key → r = r'
  blob : ∀ r ∈ rows, ∀ r' ∈ rows, r.blob = r'.blob → r = r'
  stored : ∀ r ∈ rows, ∃ b, blobs r.blob = some b ∧ Suits b r.digest
  named : ∀ o, blobs o ≠ none → ∃ r ∈ rows, r.blob = o

/-- The blobs in the middle of a transaction. -/
structure Journal (ο β : Type) where
  blobs : ο → Option β
  made : Set ο
  dropped : Set ο

/-- What giving up needs; `replaced` says whether a blob from before the transaction has been dropped. -/
structure Pending (blobs0 : ο → Option β) (replaced : Prop) (s : Journal ο β) : Prop where
  kept : ∀ o, o ∉ s.made → s.blobs o = blobs0 o
  fresh : ∀ o ∈ s.made, blobs0 o = none
  spare : ¬replaced → s.dropped ⊆ s.made

/-- What a transaction keeps that started with `rows0` and `blobs0`; `erased` says whether it has erased a row. -/
structure Ledger (Suits : β → η → Prop) (rows0 : Set (Row κ ο η)) (blobs0 : ο → Option β) (erased replaced : Prop)
    (rows : Set (Row κ ο η)) (s : Journal ο β) : Prop extends Pending blobs0 replaced s where
  key : ∀ r ∈ rows, ∀ r' ∈ rows, r.key = r'.key → r = r'
  blob : ∀ r ∈ rows, ∀ r' ∈ rows, r.blob = r'.blob → r = r'
  stored : ∀ r ∈ rows, ∃ b, s.blobs r.blob = some b ∧ Suits b r.digest
  original : ∀ r ∈ rows, r.blob ∉ s.made → r ∈ rows0
  live : ∀ r ∈ rows, r.blob ∉ s.dropped
  present : ∀ o ∈ s.dropped, s.blobs o ≠ none
  named : ¬erased → ∀ o, s.blobs o ≠ none → o ∈ s.dropped ∨ ∃ r ∈ rows, r.blob = o

/-- The blobs after those of a set have been removed. -/
structure Removes (out : Set ο) (blobs blobs' : ο → Option β) : Prop where
  gone : ∀ o ∈ out, blobs' o = none
  kept : ∀ o, o ∉ out → blobs' o = blobs o

section

variable {Suits : β → η → Prop} {rows0 rows : Set (Row κ ο η)} {blobs0 : ο → Option β} {erased replaced : Prop}
variable {s : Journal ο β} {r old : Row κ ο η} {b : β}

theorem Exact.ledger (h : Exact Suits rows blobs0) : Ledger Suits rows blobs0 False False rows ⟨blobs0, ∅, ∅⟩ where
  kept _ _ := rfl
  fresh _ ho := absurd ho (Set.notMem_empty _)
  spare _ := Set.Subset.rfl
  key := h.key
  blob := h.blob
  stored := h.stored
  original _ hr _ := hr
  live _ _ := Set.notMem_empty _
  present _ ho := absurd ho (Set.notMem_empty _)
  named _ o ho := .inr (h.named o ho)

theorem Pending.mono {replaced' : Prop} (h : Pending blobs0 replaced s) (hr : replaced → replaced') :
    Pending blobs0 replaced' s :=
  ⟨h.kept, h.fresh, fun hn => h.spare fun hr' => hn (hr hr')⟩

open Classical in
/-- A blob is written under a new name. -/
noncomputable def Journal.make (s : Journal ο β) (o : ο) (b : β) : Journal ο β :=
  { s with blobs := Function.update s.blobs o (some b), made := insert o s.made }

theorem Journal.make_blobs_self (s : Journal ο β) (o : ο) (b : β) : (s.make o b).blobs o = some b := by
  simp [Journal.make]

theorem Journal.make_blobs_of_ne (s : Journal ο β) {o o' : ο} (b : β) (h : o' ≠ o) :
    (s.make o b).blobs o' = s.blobs o' := by
  simp [Journal.make, h]

theorem Pending.make {o : ο} (h : Pending blobs0 replaced s) (ho : s.blobs o = none) :
    Pending blobs0 replaced (s.make o b) := by
  constructor
  · intro o' ho'
    have hne : o' ≠ o := fun e => ho' (e ▸ Set.mem_insert _ _)
    rw [s.make_blobs_of_ne b hne]
    exact h.kept o' fun hm => ho' (Set.mem_insert_of_mem _ hm)
  · intro o' ho'
    rcases ho' with rfl | ho'
    · by_cases hm : o' ∈ s.made
      · exact h.fresh o' hm
      · rw [← h.kept o' hm]
        exact ho
    · exact h.fresh o' ho'
  · intro hn o' ho'
    exact Set.mem_insert_of_mem _ (h.spare hn ho')

/-- A blob is put aside. -/
theorem Pending.drop {o : ο} (h : Pending blobs0 replaced s) :
    Pending blobs0 (replaced ∨ o ∉ s.made) { s with dropped := insert o s.dropped } := by
  constructor
  · exact h.kept
  · exact h.fresh
  · intro hn o' ho'
    rw [not_or, not_not] at hn
    rcases ho' with rfl | ho'
    · exact hn.2
    · exact h.spare hn.1 ho'

/-- The row of a key goes. -/
theorem Ledger.erase (h : Ledger Suits rows0 blobs0 erased replaced rows s) (k : κ) :
    Ledger Suits rows0 blobs0 (erased ∨ ∃ r ∈ rows, r.key = k) replaced {r | r ∈ rows ∧ r.key ≠ k} s where
  toPending := h.toPending
  key r hr r' hr' := h.key r hr.1 r' hr'.1
  blob r hr r' hr' := h.blob r hr.1 r' hr'.1
  stored r hr := h.stored r hr.1
  original r hr := h.original r hr.1
  live r hr := h.live r hr.1
  present := h.present
  named hn o ho := by
    rw [not_or, not_exists] at hn
    rcases h.named hn.1 o ho with hd | ⟨r, hr, hro⟩
    · exact .inl hd
    · exact .inr ⟨r, ⟨hr, fun hk => hn.2 r ⟨hr, hk⟩⟩, hro⟩

/-- A new key gets a row for a new blob. -/
theorem Ledger.insert (h : Ledger Suits rows0 blobs0 erased replaced rows s) (hk : ∀ r' ∈ rows, r'.key ≠ r.key)
    (ho : s.blobs r.blob = none) (hb : Suits b r.digest) :
    Ledger Suits rows0 blobs0 erased replaced (insert r rows) (s.make r.blob b) := by
  have hne : ∀ r' ∈ rows, r'.blob ≠ r.blob := by
    intro r' hr' e
    obtain ⟨b', hb', -⟩ := h.stored r' hr'
    rw [e, ho] at hb'
    cases hb'
  refine { toPending := h.toPending.make ho, key := ?_, blob := ?_, stored := ?_, original := ?_, live := ?_,
           present := ?_, named := ?_ }
  · rintro r1 (rfl | h1) r2 (rfl | h2) e
    · rfl
    · exact absurd e.symm (hk r2 h2)
    · exact absurd e (hk r1 h1)
    · exact h.key r1 h1 r2 h2 e
  · rintro r1 (rfl | h1) r2 (rfl | h2) e
    · rfl
    · exact absurd e.symm (hne r2 h2)
    · exact absurd e (hne r1 h1)
    · exact h.blob r1 h1 r2 h2 e
  · rintro r1 (rfl | h1)
    · exact ⟨b, s.make_blobs_self _ b, hb⟩
    · obtain ⟨b', hb', hs⟩ := h.stored r1 h1
      exact ⟨b', (s.make_blobs_of_ne b (hne r1 h1)).trans hb', hs⟩
  · rintro r1 (rfl | h1) hm
    · exact absurd (Set.mem_insert _ _) hm
    · exact h.original r1 h1 fun hm' => hm (Set.mem_insert_of_mem _ hm')
  · rintro r1 (rfl | h1)
    · exact fun hd => h.present _ hd ho
    · exact h.live r1 h1
  · intro o hd
    have hne' : o ≠ r.blob := fun e => h.present o hd (e ▸ ho)
    show (s.make r.blob b).blobs o ≠ none
    rw [s.make_blobs_of_ne b hne']
    exact h.present o hd
  · intro hn o hbo
    by_cases e : o = r.blob
    · exact .inr ⟨r, Set.mem_insert _ _, e.symm⟩
    · have hbo' : s.blobs o ≠ none := by
        rw [← s.make_blobs_of_ne b e]
        exact hbo
      rcases h.named hn o hbo' with hd | ⟨r', hr', e'⟩
      · exact .inl hd
      · exact .inr ⟨r', Set.mem_insert_of_mem _ hr', e'⟩

/-- The row of a key turns to a new blob. -/
theorem Ledger.replace (h : Ledger Suits rows0 blobs0 erased replaced rows s) (hold : old ∈ rows) (hk : old.key = r.key)
    (ho : s.blobs r.blob = none) (hb : Suits b r.digest) :
    Ledger Suits rows0 blobs0 erased (replaced ∨ old.blob ∉ s.made) (Insert.insert r {r' | r' ∈ rows ∧ r'.key ≠ r.key})
      { s.make r.blob b with dropped := Insert.insert old.blob s.dropped } := by
  have hother : ∀ r' ∈ rows, r'.key ≠ r.key → r'.blob ≠ old.blob := by
    intro r' hr' hne e
    exact hne (h.blob r' hr' old hold e ▸ hk)
  have hne : ∀ r' ∈ rows, r'.blob ≠ r.blob := by
    intro r' hr' e
    obtain ⟨b', hb', -⟩ := h.stored r' hr'
    rw [e, ho] at hb'
    cases hb'
  have hmid := (h.erase r.key).insert (r := r) (b := b) (fun r' hr' => hr'.2) ho hb
  have hp := h.toPending.drop (o := old.blob)
  refine { toPending := ⟨hmid.kept, hmid.fresh, ?_⟩, key := hmid.key, blob := hmid.blob, stored := hmid.stored,
           original := hmid.original, live := ?_, present := ?_, named := ?_ }
  · intro hn o hd
    exact Set.mem_insert_of_mem _ (hp.spare hn hd)
  · rintro r1 hr1 (e | hd)
    · rcases hr1 with rfl | hr1
      · exact hne old hold e.symm
      · exact hother r1 hr1.1 hr1.2 e
    · exact hmid.live r1 hr1 hd
  · rintro o (rfl | hd)
    · obtain ⟨b', hb', -⟩ := h.stored old hold
      show (s.make r.blob b).blobs old.blob ≠ none
      rw [s.make_blobs_of_ne b (hne old hold), hb']
      simp
    · exact hmid.present o hd
  · intro hn o hbo
    by_cases e : o = r.blob
    · exact .inr ⟨r, Set.mem_insert _ _, e.symm⟩
    · have hbo' : s.blobs o ≠ none := by
        rw [← s.make_blobs_of_ne b e]
        exact hbo
      rcases h.named hn o hbo' with hd | ⟨r', hr', e'⟩
      · exact .inl (.inr hd)
      · by_cases hk' : r'.key = r.key
        · rw [h.key r' hr' old hold (hk'.trans hk.symm)] at e'
          exact .inl (.inl e'.symm)
        · exact .inr ⟨r', .inr ⟨hr', hk'⟩, e'⟩

/-- A transaction that erased no row ends with an exact store. -/
theorem Ledger.settle {blobs' : ο → Option β} (h : Ledger Suits rows0 blobs0 erased replaced rows s) (hn : ¬erased)
    (hr : Removes s.dropped s.blobs blobs') : Exact Suits rows blobs' := by
  refine ⟨h.key, h.blob, fun r hrow => ?_, fun o ho => ?_⟩
  · rw [hr.kept r.blob (h.live r hrow)]
    exact h.stored r hrow
  · have hd : o ∉ s.dropped := fun hd => ho (hr.gone o hd)
    rw [hr.kept o hd] at ho
    exact (h.named hn o ho).resolve_left hd

theorem Removes.trans {out out' : Set ο} {blobs blobs' blobs'' : ο → Option β} (h : Removes out blobs blobs')
    (h' : Removes out' blobs' blobs'') : Removes (out ∪ out') blobs blobs'' := by
  refine ⟨fun o ho => ?_, fun o ho => ?_⟩
  · by_cases hout : o ∈ out'
    · exact h'.gone o hout
    · rw [h'.kept o hout]
      exact h.gone o (ho.resolve_right hout)
  · rw [h'.kept o fun hm => ho (.inr hm)]
    exact h.kept o fun hm => ho (.inl hm)

/-- A transaction that is given up and has dropped no blob from before leaves the blobs it found. -/
theorem Pending.abandon {blobs1 blobs2 : ο → Option β} (h : Pending blobs0 replaced s) (hn : ¬replaced)
    (h1 : Removes s.made s.blobs blobs1) (h2 : Removes s.dropped blobs1 blobs2) : blobs2 = blobs0 := by
  funext o
  by_cases hm : o ∈ s.made
  · rw [h.fresh o hm]
    by_cases hd : o ∈ s.dropped
    · exact h2.gone o hd
    · rw [h2.kept o hd]
      exact h1.gone o hm
  · rw [h2.kept o fun hd => hm (h.spare hn hd), h1.kept o hm]
    exact h.kept o hm

end

end Blobs
