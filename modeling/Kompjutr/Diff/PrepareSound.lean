/-
  Kompjutr.Diff.PrepareSound

  What the preparation establishes.  Equal classes stand for equal lines
  (`classify_denotes`, `classifyBytes_denotes`), the trimmed head and tail agree
  class by class, and after the cleanup the unmarked lines between them are
  exactly the reference lines the search runs over (`Prepared`).

  `Side.kept` is the notion all later passes are stated in: the classes of the
  unmarked lines of a range, in order.  A diff is right when it is the same
  list on both sides (`Aligned`).
-/
import Kompjutr.Diff.Prepare
import Mathlib.Tactic.Common
import Mathlib.Data.List.Basic

namespace Kompjutr.Diff

open List (getElem?_eq_none lookup_cons map_append map_map mem_map nodup_nil)

namespace Side

/-- The classes of the unmarked lines in `[lo, hi)`, in order. -/
def kept (s : Side) (lo hi : Int) : List (Option Nat) :=
  ((Int.range lo hi).filter fun i => !s.changed.get i).map s.classAt

/-- One class for each line, and marks on lines only. -/
structure Ok (s : Side) : Prop where
  classes_length : s.classes.length = s.lines.length
  within : s.changed.Within s.lines.length

/-- Class `c` stands for lines with the units `den c`. -/
def Denotes (s : Side) (den : Nat → Option (List Nat)) : Prop :=
  s.classes.map den = s.lines.map fun line => some line.units

theorem kept_append (s : Side) {a b c : Int} (hab : a ≤ b) (hbc : b ≤ c) :
    s.kept a c = s.kept a b ++ s.kept b c := by
  simp only [kept, range_append hab hbc, List.filter_append, map_append]

@[simp] theorem kept_self (s : Side) (a : Int) : s.kept a a = [] := by
  simp [kept]

theorem kept_cons (s : Side) {a b : Int} (h : a < b) :
    s.kept a b = (if s.changed.get a then [] else [s.classAt a]) ++ s.kept (a + 1) b := by
  simp only [kept, range_cons h, List.filter_cons]
  cases s.changed.get a <;> simp

theorem kept_snoc (s : Side) {a b : Int} (h : a < b) :
    s.kept a b = s.kept a (b - 1) ++ if s.changed.get (b - 1) then [] else [s.classAt (b - 1)] := by
  simp only [kept, range_snoc h, List.filter_append, map_append, List.filter_cons]
  cases s.changed.get (b - 1) <;> simp

/-- `kept` looks at the marks of its range only. -/
theorem kept_congr {s t : Side} {a b : Int} (hclass : s.classes = t.classes)
    (h : ∀ i, a ≤ i → i < b → s.changed.get i = t.changed.get i) : s.kept a b = t.kept a b := by
  unfold kept
  have hfilter : (Int.range a b).filter (fun i => !s.changed.get i) =
      (Int.range a b).filter (fun i => !t.changed.get i) := by
    refine List.filter_congr fun i hi => ?_
    rw [Int.mem_range_iff] at hi
    rw [h i hi.1 hi.2]
  rw [hfilter]
  exact List.map_congr_left fun i _ => by rw [classAt, classAt, hclass]

theorem kept_eq_nil {s : Side} {a b : Int} (h : ∀ i, a ≤ i → i < b → s.changed.get i = true) :
    s.kept a b = [] := by
  simp only [kept, List.map_eq_nil_iff, List.filter_eq_nil_iff]
  intro i hi
  rw [Int.mem_range_iff] at hi
  simp [h i hi.1 hi.2]

end Side

/-- The unmarked lines of both sides are the same, class by class. -/
def Aligned (left right : Side) : Prop :=
  left.kept 0 left.length = right.kept 0 right.length

-- Classification

/-- `den` of the classes assigned so far survives the rest of the walk, and each line's
    class stands for its content. -/
theorem assignClasses_denotes {σ α κ : Type} {idFor : σ → α → Nat × σ} (bump : σ → Nat → σ)
    (Inv : σ → Prop) (den : σ → Nat → Option κ) (content : α → κ)
    (hbump : ∀ s id, Inv s → Inv (bump s id) ∧ den (bump s id) = den s)
    (hid : ∀ s a, Inv s → Inv (idFor s a).2 ∧ den (idFor s a).2 (idFor s a).1 = some (content a) ∧
      ∀ c k, den s c = some k → den (idFor s a).2 c = some k)
    (s : σ) (lines : List α) (hs : Inv s) :
    Inv (assignClasses idFor bump s lines).2 ∧
    (assignClasses idFor bump s lines).1.map (den (assignClasses idFor bump s lines).2) =
      lines.map (fun a => some (content a)) ∧
    ∀ c k, den s c = some k → den (assignClasses idFor bump s lines).2 c = some k := by
  induction lines generalizing s with
  | nil => exact ⟨hs, rfl, fun c k h => h⟩
  | cons line rest ih =>
    obtain ⟨hinv, hden, hkeep⟩ := hid s line hs
    obtain ⟨hinv', hden'⟩ := hbump _ (idFor s line).1 hinv
    obtain ⟨h1, h2, h3⟩ := ih (bump (idFor s line).2 (idFor s line).1) hinv'
    refine ⟨h1, ?_, fun c k h => h3 c k ?_⟩
    · simp only [assignClasses, List.map_cons]
      rw [h2, h3 _ _ (by rw [hden']; exact hden)]
    · rw [hden']
      exact hkeep c k h

/-- The classes of the old lines keep their meaning while the new lines are numbered. -/
theorem map_eq_of_den {α κ : Type} {den den' : Nat → Option κ} {classes : List Nat}
    {lines : List α} {content : α → κ} (h : classes.map den = lines.map fun a => some (content a))
    (hkeep : ∀ c k, den c = some k → den' c = some k) :
    classes.map den' = lines.map fun a => some (content a) := by
  rw [← h]
  refine List.map_congr_left fun c hc => ?_
  have hmem : den c ∈ lines.map fun a => some (content a) := h ▸ List.mem_map_of_mem hc
  obtain ⟨a, -, ha⟩ := mem_map.1 hmem
  rw [← ha]
  exact hkeep c _ ha.symm

/-- Of distinct keys, one has one place. -/
theorem getElem?_map_inj {α β κ : Type} {f : β → κ} (hf : Function.Injective f) {key : α → β}
    {entries : List α} (h : (entries.map key).Nodup) {c c' : Nat} {k : κ}
    (hc : entries[c]?.map (fun entry => f (key entry)) = some k)
    (hc' : entries[c']?.map (fun entry => f (key entry)) = some k) : c = c' := by
  obtain ⟨entry, hentry, rfl⟩ := Option.map_eq_some_iff.1 hc
  obtain ⟨other, hother, hsame⟩ := Option.map_eq_some_iff.1 hc'
  refine (List.getElem?_inj ?_ h).1 ?_
  · rw [List.length_map]
    exact (List.getElem?_eq_some_iff.1 hentry).1
  · rw [List.getElem?_map, List.getElem?_map, hentry, hother, Option.map_some, Option.map_some,
      hf hsame]

namespace TextTable

/-- The ids are the positions of the distinct lines. -/
def Inv (t : TextTable) : Prop := t.ids.map Prod.snd = List.range t.inOld.length

def den (t : TextTable) (c : Nat) : Option (List Nat) :=
  t.ids[c]?.map fun p => p.1.map UInt16.toNat

theorem getElem_of_lookup {t : TextTable} (ht : t.Inv) {line : List UInt16} {id : Nat}
    (h : t.ids.lookup line = some id) : t.ids[id]? = some (line, id) := by
  obtain ⟨l1, l2, hids, -⟩ := List.lookup_eq_some_iff.1 h
  have hget : t.ids[l1.length]? = some (line, id) := by simp [hids]
  have hsnd : (t.ids.map Prod.snd)[l1.length]? = some id := by simp [hget]
  rw [ht, List.getElem?_range (by
    have hlen := congrArg List.length ht
    simp only [List.length_map, List.length_range, hids, List.length_append,
      List.length_cons] at hlen
    omega)] at hsnd
  have hpos : l1.length = id := Option.some.inj hsnd
  rwa [hpos] at hget

theorem idFor_spec (t : TextTable) (line : List UInt16) (ht : t.Inv) :
    (t.idFor line).2.Inv ∧
    (t.idFor line).2.den (t.idFor line).1 = some (line.map UInt16.toNat) ∧
    ∀ c k, t.den c = some k → (t.idFor line).2.den c = some k := by
  have hlen : t.ids.length = t.inOld.length := by
    simpa using congrArg List.length ht
  unfold idFor
  split
  · rename_i existing hfound
    exact ⟨ht, by simp [den, getElem_of_lookup ht hfound], fun c k h => h⟩
  · refine ⟨?_, ?_, fun c k h => ?_⟩
    · have ht' : t.ids.map Prod.snd = List.range t.inOld.length := ht
      simp [Inv, ht', List.range_succ]
    · simp [den, ← hlen]
    · simp only [den, Option.map_eq_some_iff] at h ⊢
      obtain ⟨p, hp, hk⟩ := h
      have hc : c < t.ids.length := by
        by_contra hge
        rw [getElem?_eq_none (by omega)] at hp
        cases hp
      exact ⟨p, by rw [List.getElem?_append_left hc]; exact hp, hk⟩

/-- Every line has one id. -/
def Distinct (t : TextTable) : Prop := t.Inv ∧ (t.ids.map Prod.fst).Nodup

theorem Distinct.idFor {t : TextTable} (h : t.Distinct) (line : List UInt16) :
    (t.idFor line).2.Distinct := by
  refine ⟨(idFor_spec t line h.1).1, ?_⟩
  unfold TextTable.idFor
  split
  · exact h.2
  next hnone =>
    rw [map_append, List.map_singleton]
    refine List.nodup_append.2 ⟨h.2, by simp, fun other hother added hadded => ?_⟩
    obtain rfl := List.mem_singleton.1 hadded
    obtain ⟨entry, hentry, rfl⟩ := mem_map.1 hother
    rintro rfl
    simpa using List.lookup_eq_none_iff.1 hnone entry hentry

theorem Distinct.den_inj {t : TextTable} (h : t.Distinct) {c c' : Nat} {k : List Nat}
    (hc : t.den c = some k) (hc' : t.den c' = some k) : c = c' :=
  getElem?_map_inj (List.map_injective_iff.2 fun _ _ => UInt16.toNat_inj.1) h.2 hc hc'

end TextTable

theorem classify_denotes (oldLines newLines : List (List UInt16)) :
    ∃ den : Nat → Option (List Nat),
      (classify oldLines newLines).oldClasses.map den =
        oldLines.map (fun l => some (l.map UInt16.toNat)) ∧
      (classify oldLines newLines).newClasses.map den =
        newLines.map (fun l => some (l.map UInt16.toNat)) ∧
      ∀ c c' k, den c = some k → den c' = some k → c = c' := by
  have hid := fun t line (h : TextTable.Distinct t) =>
    And.intro (h.idFor line) (TextTable.idFor_spec t line h.1).2
  have hbumpOld : ∀ (t : TextTable) id, t.Distinct →
      (t.bumpOld id).Distinct ∧ (t.bumpOld id).den = t.den := fun t id h =>
    ⟨⟨by simpa [TextTable.Inv, TextTable.bumpOld] using h.1, h.2⟩, rfl⟩
  obtain ⟨h1, h2, -⟩ := assignClasses_denotes TextTable.bumpOld TextTable.Distinct TextTable.den
    (fun l => l.map UInt16.toNat) hbumpOld hid ⟨[], [], []⟩ oldLines ⟨rfl, nodup_nil⟩
  obtain ⟨h4, h5, h6⟩ := assignClasses_denotes TextTable.bumpNew TextTable.Distinct TextTable.den
    (fun l => l.map UInt16.toNat) (fun _ _ h => ⟨h, rfl⟩) hid _ newLines h1
  exact ⟨_, map_eq_of_den h2 h6, h5, fun _ _ _ => h4.den_inj⟩

/-- Two records are equal for the source exactly when their bytes are. -/
theorem byteRecordsEqual_iff (left right : ByteRecord) :
    byteRecordsEqual left right = true ↔ left.content = right.content := by
  have hl := left.start_le
  have hr := right.start_le
  have hread : ∀ (r : ByteRecord) (i : Nat), i < r.end - r.start →
      r.content[i]? = r.bytes[r.start + i]? := by
    intro r i hi
    simp [ByteRecord.content, hi]
  simp only [byteRecordsEqual, Bool.and_eq_true, decide_eq_true_eq, List.all_eq_true,
    List.mem_range]
  constructor
  · rintro ⟨hlen, hall⟩
    refine List.ext_getElem? fun i => ?_
    by_cases hi : i < left.end - left.start
    · rw [hread left i hi, hread right i (by omega), hall i hi]
    · rw [getElem?_eq_none (by simp; omega), getElem?_eq_none (by simp; omega)]
  · intro heq
    have hlen : right.end - right.start = left.end - left.start := by
      simpa using (congrArg List.length heq).symm
    refine ⟨hlen, fun i hi => ?_⟩
    rw [← hread left i hi, ← hread right i (by omega), heq]

namespace ByteTable

def den (t : ByteTable) (c : Nat) : Option (List Nat) :=
  t.representatives[c]?.map fun r => r.content.map UInt8.toNat

theorem idFor_spec (t : ByteTable) (line : ByteRecord) :
    (t.idFor line).2.den (t.idFor line).1 = some (line.content.map UInt8.toNat) ∧
    ∀ c k, t.den c = some k → (t.idFor line).2.den c = some k := by
  unfold idFor
  simp only
  split
  · rename_i id hfound
    have hrep := List.find?_some hfound
    simp only [represents] at hrep
    split at hrep
    · rename_i representative hget
      rw [byteRecordsEqual_iff] at hrep
      exact ⟨by simp [den, hget, hrep], fun c k h => h⟩
    · cases hrep
  · refine ⟨by simp [den], fun c k h => ?_⟩
    simp only [den, Option.map_eq_some_iff] at h ⊢
    obtain ⟨r, hr, hk⟩ := h
    have hc : c < t.representatives.length := by
      by_contra hge
      rw [getElem?_eq_none (by omega)] at hr
      cases hr
    exact ⟨r, by rw [List.getElem?_append_left hc]; exact hr, hk⟩

/-- No two representatives have one content, and each is in the bucket of its key. -/
structure Distinct (t : ByteTable) : Prop where
  nodup : (t.representatives.map ByteRecord.content).Nodup
  bucket : ∀ id r, t.representatives[id]? = some r →
    id ∈ (t.buckets.lookup (byteRecordHash r)).getD []

theorem byteRecordHash_congr {left right : ByteRecord} (h : left.content = right.content) :
    byteRecordHash left = byteRecordHash right := by
  have hlength : ∀ r : ByteRecord, r.end - r.start = r.content.length := fun r => by
    have := r.end_le
    simp only [ByteRecord.content, List.length_take, List.length_drop]
    omega
  simp only [byteRecordHash, hlength, h]

theorem lookup_addToBucket (buckets : List ((Nat × UInt32 × UInt32) × List Nat))
    (key other : Nat × UInt32 × UInt32) (id : Nat) :
    (addToBucket buckets key id).lookup other =
      if other = key then some ((buckets.lookup key).getD [] ++ [id]) else buckets.lookup other := by
  induction buckets with
  | nil =>
    by_cases hkey : other = key
    · simp [addToBucket, hkey]
    · have hbeq : (other == key) = false := by simpa using hkey
      simp [addToBucket, lookup_cons, hkey, hbeq]
  | cons entry buckets ih =>
    obtain ⟨key', bucket⟩ := entry
    unfold addToBucket
    by_cases hsame : key' = key
    · subst hsame
      by_cases hkey : other = key'
      · simp [hkey]
      · have hbeq : (other == key') = false := by simpa using hkey
        simp [lookup_cons, hkey, hbeq]
    · rw [if_neg hsame]
      have hbeq : (key == key') = false := by simpa using Ne.symm hsame
      by_cases hhead : other = key'
      · subst hhead
        simp [hsame]
      · have hother : (other == key') = false := by simpa using hhead
        simp only [lookup_cons, hother, hbeq, ih]

theorem Distinct.idFor {t : ByteTable} (h : t.Distinct) (line : ByteRecord) :
    (t.idFor line).2.Distinct := by
  unfold ByteTable.idFor
  dsimp only
  split
  · exact h
  · next hnone =>
    have hnew : line.content ∉ t.representatives.map ByteRecord.content := by
      intro hmem
      obtain ⟨r, hr, hcontent⟩ := mem_map.1 hmem
      obtain ⟨id, hid⟩ := List.getElem?_of_mem hr
      have hbucket := h.bucket id r hid
      rw [byteRecordHash_congr hcontent] at hbucket
      refine List.find?_eq_none.1 hnone id hbucket ?_
      rw [represents, hid]
      exact (byteRecordsEqual_iff r line).2 hcontent
    refine { nodup := ?_, bucket := fun id r hr => ?_ }
    · rw [map_append, List.nodup_append]
      refine ⟨h.nodup, List.nodup_cons.2 ⟨List.not_mem_nil, nodup_nil⟩, ?_⟩
      rintro a ha b hb rfl
      exact hnew (List.mem_singleton.1 hb ▸ ha)
    · dsimp only at hr ⊢
      rw [lookup_addToBucket]
      rcases Nat.lt_or_ge id t.representatives.length with hlt | hge
      · rw [List.getElem?_append_left hlt] at hr
        have hold := h.bucket id r hr
        split
        · next hkey =>
          rw [hkey] at hold
          exact List.mem_append_left _ hold
        · exact hold
      · rw [List.getElem?_append_right hge] at hr
        obtain ⟨hlt, hget⟩ := List.getElem?_eq_some_iff.1 hr
        rw [List.length_singleton] at hlt
        obtain rfl : line = r := (List.getElem_singleton hlt).symm.trans hget
        rw [if_pos rfl]
        refine List.mem_append_right _ (List.mem_singleton.2 ?_)
        omega

/-- A class stands for one content, and each content has one class. -/
theorem Distinct.den_inj {t : ByteTable} (h : t.Distinct) {c c' : Nat} {k : List Nat}
    (hc : t.den c = some k) (hc' : t.den c' = some k) : c = c' :=
  getElem?_map_inj (List.map_injective_iff.2 fun _ _ => UInt8.toNat_inj.1) h.nodup hc hc'

end ByteTable

theorem classifyBytes_denotes (oldLines newLines : List ByteRecord) :
    ∃ den : Nat → Option (List Nat),
      (classifyBytes oldLines newLines).oldClasses.map den =
        oldLines.map (fun r => some (r.content.map UInt8.toNat)) ∧
      (classifyBytes oldLines newLines).newClasses.map den =
        newLines.map (fun r => some (r.content.map UInt8.toNat)) ∧
      ∀ c c' k, den c = some k → den c' = some k → c = c' := by
  have hid := fun t line (h : ByteTable.Distinct t) =>
    And.intro (h.idFor line) (ByteTable.idFor_spec t line)
  obtain ⟨h1, h2, -⟩ := assignClasses_denotes ByteTable.bumpOld ByteTable.Distinct ByteTable.den
    (fun r => r.content.map UInt8.toNat) (fun _ _ h => ⟨⟨h.nodup, h.bucket⟩, rfl⟩) hid
    ⟨[], [], [], []⟩ oldLines ⟨nodup_nil, nofun⟩
  obtain ⟨h4, h5, h6⟩ := assignClasses_denotes ByteTable.bumpNew ByteTable.Distinct ByteTable.den
    (fun r => r.content.map UInt8.toNat) (fun _ _ h => ⟨⟨h.nodup, h.bucket⟩, rfl⟩) hid
    (assignClasses ByteTable.idFor ByteTable.bumpOld ⟨[], [], [], []⟩ oldLines).2 newLines h1
  exact ⟨_, map_eq_of_den h2 h6, h5, fun _ _ _ => h4.den_inj⟩

theorem eq_of_map_den {κ : Type} {den : Nat → Option κ}
    (hinj : ∀ c c' k, den c = some k → den c' = some k → c = c') {classes others : List Nat}
    {keys : List κ} (h : classes.map den = keys.map some) (h' : others.map den = keys.map some) :
    classes = others := by
  induction keys generalizing classes others with
  | nil => rw [List.map_eq_nil_iff.1 h, List.map_eq_nil_iff.1 h']
  | cons key keys ih =>
    obtain ⟨c, cs, rfl, hc, hcs⟩ := List.map_eq_cons_iff.1 h
    obtain ⟨d, ds, rfl, hd, hds⟩ := List.map_eq_cons_iff.1 h'
    rw [hinj c d key hc hd, ih hcs hds]

/-- Equal lines are in equal classes. -/
theorem classifyBytes_same {oldLines newLines : List ByteRecord}
    (h : oldLines.map ByteRecord.content = newLines.map ByteRecord.content) :
    (classifyBytes oldLines newLines).oldClasses = (classifyBytes oldLines newLines).newClasses := by
  obtain ⟨den, hold, hnew, hinj⟩ := classifyBytes_denotes oldLines newLines
  let keys := oldLines.map fun r => r.content.map UInt8.toNat
  refine @eq_of_map_den _ den hinj _ _ keys ?_ ?_
  · rw [hold, map_map]
    rfl
  · have hkeys : newLines.map (fun r => r.content.map UInt8.toNat) = keys := by
      have := congrArg (List.map (List.map UInt8.toNat)) h.symm
      rwa [map_map, map_map] at this
    rw [hnew, ← hkeys, map_map]
    rfl

-- Trimming

/-- The head loop stops within its bound, and skipped only equal classes. -/
theorem commonHead_spec (left right : Side) (n : Nat) (index : Int) :
    index ≤ commonHead left right n index ∧ commonHead left right n index ≤ index + n ∧
    ∀ i, index ≤ i → i < commonHead left right n index → left.classAt i = right.classAt i := by
  induction n generalizing index with
  | zero => exact ⟨by simp [commonHead], by simp [commonHead], fun i h1 h2 => by
      simp only [commonHead] at h2; omega⟩
  | succ n ih =>
    simp only [commonHead]
    split
    · rename_i heq
      obtain ⟨h1, h2, h3⟩ := ih (index + 1)
      refine ⟨by omega, by omega, fun i hi hlt => ?_⟩
      by_cases hfirst : i = index
      · exact hfirst ▸ heq
      · exact h3 i (by omega) hlt
    · exact ⟨by omega, by omega, fun i h1 h2 => by omega⟩

/-- Sides with the same classes have the same head as far as one looks. -/
theorem commonHead_same {left right : Side} (h : left.classes = right.classes) (n : Nat)
    (index : Int) : commonHead left right n index = index + n := by
  induction n generalizing index with
  | zero => exact (Int.add_zero index).symm
  | succ n ih =>
    have hclass : left.classAt index = right.classAt index := by rw [Side.classAt, Side.classAt, h]
    rw [commonHead, if_pos hclass, ih]
    omega

theorem commonTail_spec (left right : Side) (n : Nat) (back : Int) :
    back ≤ commonTail left right n back ∧ commonTail left right n back ≤ back + n ∧
    ∀ k, back ≤ k → k < commonTail left right n back →
      left.classAt (left.length - 1 - k) = right.classAt (right.length - 1 - k) := by
  induction n generalizing back with
  | zero => exact ⟨by simp [commonTail], by simp [commonTail], fun i h1 h2 => by
      simp only [commonTail] at h2; omega⟩
  | succ n ih =>
    simp only [commonTail]
    split
    · rename_i heq
      obtain ⟨h1, h2, h3⟩ := ih (back + 1)
      refine ⟨by omega, by omega, fun k hk hlt => ?_⟩
      by_cases hfirst : k = back
      · exact hfirst ▸ heq
      · exact h3 k (by omega) hlt
    · exact ⟨by omega, by omega, fun i h1 h2 => by omega⟩

/-- Between `dstart` and `dend` lies what the trimmed ends leave. -/
structure Trimmed (left right : Side) : Prop where
  dstart_eq : left.dstart = right.dstart
  dstart_nonneg : 0 ≤ left.dstart
  left_le : left.dstart ≤ left.dend + 1 ∧ left.dend + 1 ≤ left.length
  right_le : right.dstart ≤ right.dend + 1 ∧ right.dend + 1 ≤ right.length
  tail_eq : left.length - left.dend = right.length - right.dend
  head_same : ∀ i, 0 ≤ i → i < left.dstart → left.classAt i = right.classAt i
  tail_same : ∀ k, 0 ≤ k → k < left.length - left.dend - 1 →
    left.classAt (left.dend + 1 + k) = right.classAt (right.dend + 1 + k)

theorem trimEnds_trimmed (left right : Side) :
    Trimmed (trimEnds left right).1 (trimEnds left right).2 := by
  have hl0 : 0 ≤ left.length := by simp [Side.length]
  have hr0 : 0 ≤ right.length := by simp [Side.length]
  obtain ⟨h1, h2, h3⟩ := commonHead_spec left right (min left.length right.length).toNat 0
  obtain ⟨t1, t2, t3⟩ := commonTail_spec left right
    (min left.length right.length -
      commonHead left right (min left.length right.length).toNat 0).toNat 0
  simp only [trimEnds]
  generalize commonHead left right (min left.length right.length).toNat 0 = index at *
  generalize commonTail left right (min left.length right.length - index).toNat 0 = back at *
  constructor
  · rfl
  · exact h1
  · simp only [Side.length] at *; omega
  · simp only [Side.length] at *; omega
  · simp only [Side.length] at *; omega
  · exact fun i hi hlt => h3 i hi hlt
  · intro k hk hlt
    have hsame := t3 (back - 1 - k) (by simp only [Side.length] at *; omega) (by omega)
    have e1 : left.length - back - 1 + 1 + k = left.length - 1 - (back - 1 - k) := by omega
    have e2 : right.length - back - 1 + 1 + k = right.length - 1 - (back - 1 - k) := by omega
    simp only [Side.classAt] at hsame ⊢
    rw [e1, e2]
    exact hsame

/-- Sides with the same classes leave nothing between head and tail. -/
theorem trimEnds_same {left right : Side} (h : left.classes = right.classes)
    (hlength : left.lines.length = right.lines.length) :
    (trimEnds left right).1.dend + 1 = (trimEnds left right).1.dstart ∧
      (trimEnds left right).2.dend + 1 = (trimEnds left right).2.dstart := by
  have hhead : commonHead left right (min left.length right.length).toNat 0 = left.length := by
    rw [commonHead_same h]
    simp only [Side.length]
    omega
  have hnone : (min left.length right.length - left.length).toNat = 0 := by
    simp only [Side.length]
    omega
  have hsame : left.length = right.length := by rw [Side.length, Side.length, hlength]
  unfold trimEnds
  dsimp only
  rw [hhead, hnone, commonTail]
  omega

-- Cleanup

variable {side : Side}

theorem applyActions_spec (hok : side.Ok) (hclean : ∀ i, side.changed.get i = false)
    {offset : Int} (h0 : 0 ≤ offset) (actions : List Action)
    (hle : offset + actions.length ≤ side.length) :
    ∃ changed reference, applyActions side offset actions = { side with changed, reference } ∧
      changed.Within side.lines.length ∧
      reference =
        ((List.range actions.length).filter (keepsLine actions)).map (fun i : Nat => (i : Int) + offset) ∧
      ∀ j, changed.get j = true ↔
        ∃ i : Nat, i < actions.length ∧ keepsLine actions i = false ∧ j = i + offset := by
  suffices h : ∀ n, n ≤ actions.length → ∃ changed reference,
      (List.range n).foldl (applyAction actions offset) { side with reference := [] } =
        { side with changed, reference } ∧
      changed.Within side.lines.length ∧
      reference = ((List.range n).filter (keepsLine actions)).map (fun i : Nat => (i : Int) + offset) ∧
      ∀ j, changed.get j = true ↔
        ∃ i : Nat, i < n ∧ keepsLine actions i = false ∧ j = i + offset from
    h actions.length (Nat.le_refl _)
  intro n
  induction n with
  | zero =>
    intro _
    refine ⟨side.changed, [], rfl, hok.within, rfl, fun j => ?_⟩
    simp [hclean j]
  | succ n ih =>
    intro hn
    obtain ⟨changed, reference, heq, hwithin, href, hget⟩ := ih (by omega)
    simp only [List.range_succ, List.foldl_append, List.foldl_cons, List.foldl_nil, heq,
      applyAction]
    by_cases hkeep : keepsLine actions n = true
    · refine ⟨changed, reference ++ [(n : Int) + offset], by simp [hkeep], hwithin, ?_, fun j => ?_⟩
      · simp [href, hkeep]
      · rw [hget j]
        constructor
        · rintro ⟨i, hi, hk, rfl⟩
          exact ⟨i, by omega, hk, rfl⟩
        · rintro ⟨i, hi, hk, rfl⟩
          refine ⟨i, ?_, hk, rfl⟩
          have : i ≠ n := fun he => by rw [he, hkeep] at hk; cases hk
          omega
    · have hkeep' : keepsLine actions n = false := by simpa using hkeep
      have hn0 : 0 ≤ (n : Int) + offset := by omega
      have hn1 : (n : Int) + offset < side.lines.length := by
        simp only [Side.length] at hle
        omega
      refine ⟨changed.set (n + offset) true, reference, by simp [hkeep'],
        Marks.set_within hwithin hn0 hn1 true, ?_, fun j => ?_⟩
      · simp [href, hkeep']
      · rw [Marks.get_set changed hwithin hn0 hn1]
        constructor
        · intro hj
          split at hj
          · exact ⟨n, by omega, hkeep', by omega⟩
          · obtain ⟨i, hi, hk, rfl⟩ := (hget j).1 hj
            exact ⟨i, by omega, hk, rfl⟩
        · rintro ⟨i, hi, hk, rfl⟩
          by_cases hin : i = n
          · simp [hin]
          · rw [if_neg (by omega)]
            exact (hget _).2 ⟨i, by omega, hk, rfl⟩

/-- The region between the trimmed ends after the cleanup: its unmarked lines are the
    reference lines, and nothing outside it is marked. -/
structure Cleaned (s : Side) : Prop where
  ok : s.Ok
  reference_eq :
    s.reference = (Int.range s.dstart (s.dend + 1)).filter fun i => !s.changed.get i
  outside : ∀ i, i < s.dstart ∨ s.dend < i → s.changed.get i = false

theorem applyActions_cleaned (hok : side.Ok)
    (hclean : ∀ i, side.changed.get i = false) (h0 : 0 ≤ side.dstart)
    (hle : side.dstart ≤ side.dend + 1 ∧ side.dend + 1 ≤ side.length) (actions : List Action)
    (hlen : (actions.length : Int) = side.dend + 1 - side.dstart) :
    ∃ changed reference, applyActions side side.dstart actions =
      { side with changed, reference } ∧ Cleaned { side with changed, reference } := by
  obtain ⟨changed, reference, heq, hwithin, href, hget⟩ :=
    applyActions_spec hok hclean h0 actions (by omega)
  have hmark : ∀ i : Nat, i < actions.length →
      (!changed.get ((i : Int) + side.dstart)) = keepsLine actions i := by
    intro i hi
    cases hk : keepsLine actions i with
    | false =>
      rw [(hget _).2 ⟨i, hi, hk, rfl⟩]
      rfl
    | true =>
      cases hg : changed.get ((i : Int) + side.dstart) with
      | false => rfl
      | true =>
        obtain ⟨i', -, hk', he⟩ := (hget _).1 hg
        have : i' = i := by omega
        rw [this, hk] at hk'
        cases hk'
  refine ⟨changed, reference, heq, ⟨hok.classes_length, hwithin⟩, ?_, fun i hi => ?_⟩
  · have hrange : Int.range side.dstart (side.dend + 1) =
        (List.range actions.length).map fun i : Nat => (i : Int) + side.dstart := by
      have hn : (side.dend + 1 - side.dstart).toNat = actions.length := by omega
      simp only [Int.range, hn]
      exact List.map_congr_left fun i _ => by omega
    show reference = _
    rw [hrange, List.filter_map, href]
    refine congrArg _ (List.filter_congr fun i hi => ?_)
    exact (hmark i (List.mem_range.1 hi)).symm
  · by_contra hne
    obtain ⟨k, hk, -, he⟩ := (hget i).1 (by simpa using hne)
    simp only at hi
    omega

end Kompjutr.Diff
