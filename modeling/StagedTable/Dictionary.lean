/-!
# Sorted dictionaries

A dictionary from text keys, held as its list of entries in strictly increasing key order.  The
order is part of the type, so equal contents are equal dictionaries, and listing one needs no
sorting.

`get?` is the view: each operation is described by one equation on it (`get?_insert`,
`get?_erase`, `get?_insertAll`), and `ext` says that the view determines the dictionary.
-/

namespace StagedTable

structure Dictionary (β : Type) where
  entries : List (String × β)
  sorted : entries.Pairwise (fun a b => a.1 < b.1)
  deriving DecidableEq

namespace Dictionary

variable {β : Type}

/-! ## entries -/

/-- puts `k` at its place in a sorted list, over an entry that is there already -/
def insertEntry (k : String) (v : β) : List (String × β) → List (String × β)
  | [] => [(k, v)]
  | e :: es =>
    if k = e.1 then (k, v) :: es
    else if k < e.1 then (k, v) :: e :: es
    else e :: insertEntry k v es

theorem lt_of_ne_of_not_lt {a b : String} (h : a ≠ b) (h' : ¬ a < b) : b < a := by
  rcases Decidable.em (b < a) with hl | hl
  · exact hl
  · exact absurd (String.le_antisymm (String.not_lt.1 hl) (String.not_lt.1 h')) h

theorem mem_insertEntry {k : String} {v : β} {es : List (String × β)} {x : String × β}
    (h : x ∈ insertEntry k v es) : x = (k, v) ∨ x ∈ es := by
  induction es with
  | nil => simpa [insertEntry] using h
  | cons e es ih =>
    simp only [insertEntry] at h
    split at h
    · rcases List.mem_cons.1 h with h | h
      · exact .inl h
      · exact .inr (List.mem_cons_of_mem _ h)
    · split at h
      · exact (List.mem_cons.1 h)
      · rcases List.mem_cons.1 h with h | h
        · exact .inr (h ▸ List.mem_cons_self)
        · exact (ih h).imp id (List.mem_cons_of_mem _)

theorem insertEntry_sorted (k : String) (v : β) {es : List (String × β)}
    (h : es.Pairwise (fun a b => a.1 < b.1)) :
    (insertEntry k v es).Pairwise (fun a b => a.1 < b.1) := by
  induction es with
  | nil => simp [insertEntry]
  | cons e es ih =>
    obtain ⟨hhd, htl⟩ := List.pairwise_cons.1 h
    simp only [insertEntry]
    split
    · next hk => exact List.pairwise_cons.2 ⟨fun x hx => by simpa [hk] using hhd x hx, htl⟩
    · next hk =>
      split
      · next hlt =>
        refine List.pairwise_cons.2 ⟨fun x hx => ?_, h⟩
        rcases List.mem_cons.1 hx with rfl | hx
        · exact hlt
        · exact String.lt_trans hlt (hhd x hx)
      · next hlt =>
        refine List.pairwise_cons.2 ⟨fun x hx => ?_, ih htl⟩
        rcases mem_insertEntry hx with rfl | hx
        · exact lt_of_ne_of_not_lt hk hlt
        · exact hhd x hx

/-! ## operations -/

def empty : Dictionary β := ⟨[], .nil⟩

instance : Inhabited (Dictionary β) := ⟨empty⟩

def get? (d : Dictionary β) (k : String) : Option β := d.entries.lookup k

def contains (d : Dictionary β) (k : String) : Bool := (d.get? k).isSome

def keys (d : Dictionary β) : List String := d.entries.map (·.1)

/-- sets `k` to `v`, whatever was there -/
def insert (d : Dictionary β) (k : String) (v : β) : Dictionary β :=
  ⟨insertEntry k v d.entries, insertEntry_sorted k v d.sorted⟩

/-- drops `k`, if it is there -/
def erase (d : Dictionary β) (k : String) : Dictionary β :=
  ⟨d.entries.filter (·.1 ≠ k), d.sorted.filter _⟩

/-- sets every listed pair in turn, so that the last pair of a key wins -/
def insertAll (d : Dictionary β) (pairs : List (String × β)) : Dictionary β :=
  pairs.foldl (fun d p => d.insert p.1 p.2) d

def eraseAll (d : Dictionary β) (ks : List String) : Dictionary β :=
  ks.foldl erase d

def ofList (pairs : List (String × β)) : Dictionary β := empty.insertAll pairs

/-! ## the view -/

@[simp] theorem get?_empty (k : String) : (empty : Dictionary β).get? k = none := rfl

theorem lookup_cons_eq (e : String × β) (es : List (String × β)) (x : String) :
    (e :: es).lookup x = if x = e.1 then some e.2 else es.lookup x := by
  rw [List.lookup_cons]
  split
  · next h => rw [if_pos (eq_of_beq h)]
  · next h => rw [if_neg (ne_of_beq_false h)]

theorem lookup_insertEntry (k : String) (v : β) (es : List (String × β)) (x : String) :
    (insertEntry k v es).lookup x = if x = k then some v else es.lookup x := by
  induction es with
  | nil => rw [insertEntry, lookup_cons_eq]
  | cons e es ih =>
    simp only [insertEntry]
    split
    · next hk => subst hk; simp only [lookup_cons_eq]; split <;> rfl
    · next hk =>
      split
      · simp only [lookup_cons_eq]
      · simp only [lookup_cons_eq, ih]
        by_cases hx : x = k
        · subst hx; simp [hk]
        · simp [hx]

/-- an insertion is seen at its own key only -/
@[grind =] theorem get?_insert (d : Dictionary β) (k : String) (v : β) (x : String) :
    (d.insert k v).get? x = if x = k then some v else d.get? x :=
  lookup_insertEntry k v d.entries x

theorem lookup_filter_ne (es : List (String × β)) (k x : String) :
    (es.filter (·.1 ≠ k)).lookup x = if x = k then none else es.lookup x := by
  induction es with
  | nil => simp
  | cons e es ih =>
    rw [List.filter_cons, lookup_cons_eq]
    by_cases hk : e.1 = k
    · simp only [hk, ne_eq, not_true_eq_false, decide_false, Bool.false_eq_true, if_false, ih]
      split <;> rfl
    · simp only [hk, ne_eq, not_false_eq_true, decide_true, if_true, lookup_cons_eq, ih]
      by_cases hx : x = e.1
      · subst hx; simp [hk]
      · simp [hx]

/-- a removal is seen at its own key only -/
@[grind =] theorem get?_erase (d : Dictionary β) (k x : String) :
    (d.erase k).get? x = if x = k then none else d.get? x :=
  lookup_filter_ne d.entries k x

/-- where no key comes twice, looking up finds just what is listed -/
theorem lookup_eq_some_iff_mem {es : List (String × β)} (hs : es.Pairwise (fun a b => a.1 ≠ b.1))
    {k : String} {v : β} : es.lookup k = some v ↔ (k, v) ∈ es := by
  induction es with
  | nil => simp
  | cons e es ih =>
    obtain ⟨k', v'⟩ := e
    obtain ⟨hhd, htl⟩ := List.pairwise_cons.1 hs
    rw [lookup_cons_eq]
    by_cases hk : k = k'
    · subst hk
      simp only [ite_true, Option.some.injEq, List.mem_cons, Prod.mk.injEq, true_and]
      constructor
      · exact fun h => .inl h.symm
      · rintro (h | h)
        · exact h.symm
        · exact absurd rfl (hhd (k, v) h)
    · simp [hk, ih htl]

theorem keys_ne (d : Dictionary β) : d.entries.Pairwise (fun a b => a.1 ≠ b.1) :=
  d.sorted.imp fun {a b} (hlt : a.1 < b.1) (heq : a.1 = b.1) => String.lt_irrefl b.1 (heq ▸ hlt)

theorem get?_eq_some_iff_mem {d : Dictionary β} {k : String} {v : β} :
    d.get? k = some v ↔ (k, v) ∈ d.entries :=
  lookup_eq_some_iff_mem d.keys_ne

theorem lookup_reverse_entries (d : Dictionary β) (k : String) :
    d.entries.reverse.lookup k = d.get? k := by
  have hrev : d.entries.reverse.Pairwise (fun a b => a.1 ≠ b.1) :=
    List.pairwise_reverse.2 (d.keys_ne.imp Ne.symm)
  ext v
  rw [lookup_eq_some_iff_mem hrev, get?_eq_some_iff_mem, List.mem_reverse]

theorem eq_of_sorted_of_mem_iff {a b : List (String × β)}
    (ha : a.Pairwise (fun x y => x.1 < y.1)) (hb : b.Pairwise (fun x y => x.1 < y.1))
    (h : ∀ x, x ∈ a ↔ x ∈ b) : a = b := by
  induction a generalizing b with
  | nil =>
    cases b with
    | nil => rfl
    | cons y b => exact absurd ((h y).2 List.mem_cons_self) (by simp)
  | cons x a ih =>
    cases b with
    | nil => exact absurd ((h x).1 List.mem_cons_self) (by simp)
    | cons y b =>
      obtain ⟨hxa, ha'⟩ := List.pairwise_cons.1 ha
      obtain ⟨hyb, hb'⟩ := List.pairwise_cons.1 hb
      have hxy : x = y := by
        rcases List.mem_cons.1 ((h x).1 List.mem_cons_self) with hx | hx
        · exact hx
        · rcases List.mem_cons.1 ((h y).2 List.mem_cons_self) with hy | hy
          · exact hy.symm
          · exact absurd (String.lt_trans (hxa _ hy) (hyb _ hx)) (String.lt_irrefl _)
      subst hxy
      refine congrArg (x :: ·) (ih ha' hb' fun z => ?_)
      have hz := h z
      simp only [List.mem_cons] at hz
      constructor
      · intro hm
        rcases hz.1 (.inr hm) with rfl | hm'
        · exact absurd (hxa _ hm) (String.lt_irrefl _)
        · exact hm'
      · intro hm
        rcases hz.2 (.inr hm) with rfl | hm'
        · exact absurd (hyb _ hm) (String.lt_irrefl _)
        · exact hm'

/-- **Extensionality**: dictionaries that answer alike at every key are equal. -/
@[ext] theorem ext {a b : Dictionary β} (h : ∀ k, a.get? k = b.get? k) : a = b := by
  have hm : a.entries = b.entries :=
    eq_of_sorted_of_mem_iff a.sorted b.sorted fun x => by
      obtain ⟨k, v⟩ := x
      rw [← get?_eq_some_iff_mem, ← get?_eq_some_iff_mem, h k]
  obtain ⟨ea, _⟩ := a
  obtain ⟨eb, _⟩ := b
  cases hm
  rfl

/-- several pairs: the last pair of a key wins, other keys keep their value -/
theorem get?_insertAll (d : Dictionary β) (pairs : List (String × β)) (x : String) :
    (d.insertAll pairs).get? x = (pairs.reverse.lookup x).or (d.get? x) := by
  induction pairs generalizing d with
  | nil => simp [insertAll]
  | cons p ps ih =>
    have hstep : d.insertAll (p :: ps) = (d.insert p.1 p.2).insertAll ps := rfl
    rw [hstep, ih, get?_insert, List.reverse_cons, List.lookup_append]
    by_cases hx : x = p.1
    · subst hx; cases ps.reverse.lookup p.1 <;> simp [lookup_cons_eq]
    · cases ps.reverse.lookup x <;> simp [lookup_cons_eq, hx]

/-- all entries of another dictionary are seen over those that were there -/
theorem get?_insertAll_entries (d e : Dictionary β) (x : String) :
    (d.insertAll e.entries).get? x = (e.get? x).or (d.get? x) := by
  rw [get?_insertAll, lookup_reverse_entries]

/-- several removals: listed keys are gone, other keys keep their value -/
theorem get?_eraseAll (d : Dictionary β) (ks : List String) (x : String) :
    (d.eraseAll ks).get? x = if x ∈ ks then none else d.get? x := by
  induction ks generalizing d with
  | nil => simp [eraseAll]
  | cons k ks ih =>
    have hstep : d.eraseAll (k :: ks) = (d.erase k).eraseAll ks := rfl
    rw [hstep, ih, get?_erase]
    by_cases hx : x ∈ ks <;> by_cases hk : x = k <;> simp [hx, hk]

@[simp] theorem contains_eq_true_iff {d : Dictionary β} {k : String} :
    d.contains k = true ↔ (d.get? k).isSome = true := Iff.rfl

theorem keys_sorted (d : Dictionary β) : d.keys.Pairwise (· < ·) :=
  List.pairwise_map.2 d.sorted

theorem mem_keys_iff {d : Dictionary β} {k : String} : k ∈ d.keys ↔ (d.get? k).isSome = true := by
  rw [Option.isSome_iff_exists]
  simp [keys, get?_eq_some_iff_mem]

end Dictionary

end StagedTable
