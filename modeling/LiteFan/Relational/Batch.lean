import Mathlib.Data.List.Forall2
import Mathlib.Data.List.Sort
import Mathlib.Data.List.Pairwise
import Mathlib.Algebra.Order.Ring.Nat

/-!
# Chunked statements and key order

A batch is cut into chunks so that no statement binds too many values, and a
fetched row set is sorted because the store promises no order. Chunks put
together again are the batch; a statement that composes over concatenation
gives one result however the batch is cut; sorting a permutation of a strictly
ordered list gives that list.
-/

namespace Relational

universe u v

variable {α : Type u} {β : Type v}

/-- At most `fuel` chunks of length `n`, the last one possibly shorter. -/
def chunksFuel (n : ℕ) : ℕ → List α → List (List α)
  | 0, _ => []
  | _ + 1, [] => []
  | fuel + 1, x :: xs => (x :: xs).take n :: chunksFuel n fuel ((x :: xs).drop n)

/-- Consecutive chunks of length `n`, the last one possibly shorter. -/
def chunks (n : ℕ) (xs : List α) : List (List α) := chunksFuel n xs.length xs

theorem flatten_chunksFuel {n : ℕ} (hn : 0 < n) (fuel : ℕ) (xs : List α) (hf : xs.length ≤ fuel) :
    (chunksFuel n fuel xs).flatten = xs := by
  induction fuel generalizing xs with
  | zero =>
    have hnil := List.length_eq_zero_iff.mp (Nat.le_zero.mp hf)
    subst hnil
    rfl
  | succ fuel ih =>
    cases xs with
    | nil => rfl
    | cons x xs =>
      have hd : ((x :: xs).drop n).length ≤ fuel := by
        rw [List.length_drop]
        have hl : (x :: xs).length = xs.length + 1 := rfl
        omega
      rw [chunksFuel, List.flatten_cons, ih _ hd, List.take_append_drop]

/-- The chunks of a batch put together are the batch. -/
theorem flatten_chunks {n : ℕ} (hn : 0 < n) (xs : List α) : (chunks n xs).flatten = xs :=
  flatten_chunksFuel hn xs.length xs le_rfl

/-- Rewriting the members of a batch leaves its chunk boundaries where they are. -/
theorem chunks_map (n : ℕ) (f : α → β) (xs : List α) :
    chunks n (xs.map f) = (chunks n xs).map (List.map f) := by
  have hfuel : ∀ fuel (xs : List α),
      chunksFuel n fuel (xs.map f) = (chunksFuel n fuel xs).map (List.map f) := by
    intro fuel
    induction fuel with
    | zero => exact fun _ => rfl
    | succ fuel ih =>
      intro xs
      cases xs with
      | nil => rfl
      | cons x xs =>
        have hrest := ih ((x :: xs).drop n)
        rw [List.map_drop, List.map_cons] at hrest
        rw [List.map_cons, chunksFuel, hrest, chunksFuel, List.map_cons, List.map_take,
          List.map_cons]
  rw [chunks, List.length_map, hfuel, chunks]

/-- A batch of at most `n` is one chunk. -/
theorem chunks_of_length_le {n : ℕ} {xs : List α} (hne : xs ≠ []) (hl : xs.length ≤ n) :
    chunks n xs = [xs] := by
  cases xs with
  | nil => exact absurd rfl hne
  | cons x xs =>
    have ht : (x :: xs).take n = x :: xs := List.take_of_length_le hl
    have hd : (x :: xs).drop n = [] := List.drop_of_length_le hl
    rw [chunks, List.length_cons, chunksFuel, ht, hd]
    cases xs.length <;> rfl

/-- A statement that composes over concatenation, run on the parts of a list
of lists, does what it does on the whole. -/
theorem foldl_flatten {σ : Type*} {f : σ → List α → σ} (hnil : ∀ s, f s [] = s)
    (happ : ∀ s xs ys, f s (xs ++ ys) = f (f s xs) ys) (xss : List (List α)) (s : σ) :
    xss.foldl f s = f s xss.flatten := by
  induction xss generalizing s with
  | nil => exact (hnil s).symm
  | cons xs xss ih => rw [List.foldl_cons, ih, List.flatten_cons, happ]

/-- Where the chunk boundaries fall does not matter to such a statement. -/
theorem foldl_chunks {σ : Type*} {f : σ → List α → σ} (hnil : ∀ s, f s [] = s)
    (happ : ∀ s xs ys, f s (xs ++ ys) = f (f s xs) ys) {n : ℕ} (hn : 0 < n) (xs : List α) (s : σ) :
    (chunks n xs).foldl f s = f s xs := by
  rw [foldl_flatten hnil happ, flatten_chunks hn]

/-- The fallible form: a statement that composes over concatenation in `Except`. -/
theorem foldlM_chunks {σ ε : Type*} {f : σ → List α → Except ε σ} (hnil : ∀ s, f s [] = .ok s)
    (happ : ∀ s xs ys, f s (xs ++ ys) = (f s xs).bind fun t => f t ys) {n : ℕ} (hn : 0 < n)
    (xs : List α) (s : σ) : (chunks n xs).foldlM f s = f s xs := by
  have hflat : ∀ (xss : List (List α)) (s : σ), xss.foldlM f s = f s xss.flatten := by
    intro xss
    induction xss with
    | nil => exact fun s => (hnil s).symm
    | cons ys yss ih =>
      intro s
      rw [List.foldlM_cons, List.flatten_cons, happ]
      exact congrArg _ (funext ih)
  rw [hflat, flatten_chunks hn]

/-- When every member counts at least as often as it is chosen, the counts add up to the number
of chosen members exactly when each member counts as often as it is chosen. -/
theorem sum_eq_length_filter_iff {h : α → ℕ} {p : α → Bool} {xs : List α}
    (hle : ∀ a ∈ xs, (if p a then 1 else 0) ≤ h a) :
    (xs.map h).sum = (xs.filter p).length ↔ ∀ a ∈ xs, h a = if p a then 1 else 0 := by
  have hleast : ∀ ys : List α, (∀ a ∈ ys, (if p a then 1 else 0) ≤ h a) →
      (ys.filter p).length ≤ (ys.map h).sum := by
    intro ys hys
    induction ys with
    | nil => exact le_rfl
    | cons a ys ih =>
      have hhead := hys a List.mem_cons_self
      have hrest := ih fun b hb => hys b (List.mem_cons_of_mem _ hb)
      rw [List.filter_cons, List.map_cons, List.sum_cons]
      split_ifs at hhead ⊢ with ha
      · rw [List.length_cons]
        omega
      · omega
  induction xs with
  | nil => simp
  | cons a xs ih =>
    have hhead := hle a List.mem_cons_self
    have hrest := hleast xs fun b hb => hle b (List.mem_cons_of_mem _ hb)
    have htail := ih fun b hb => hle b (List.mem_cons_of_mem _ hb)
    refine Iff.trans ?_ (List.forall_mem_cons.trans (and_congr_right fun _ => htail.symm)).symm
    rw [List.filter_cons, List.map_cons, List.sum_cons]
    split_ifs at hhead ⊢ with ha
    · rw [List.length_cons]
      omega
    · omega

/-- What a lookup finds is listed with its key. -/
theorem mem_of_lookup {κ ω : Type} [BEq κ] [LawfulBEq κ] {entries : List (κ × ω)} {key : κ}
    {value : ω} (h : entries.lookup key = some value) : (key, value) ∈ entries := by
  obtain ⟨front, back, hsplit, -⟩ := List.lookup_eq_some_iff.mp h
  rw [hsplit]
  exact List.mem_append_right _ List.mem_cons_self

/-- A key of the first list is looked up at its place in the second. -/
theorem lookup_zip {κ : Type} [BEq κ] [LawfulBEq κ] {xs ys : List κ} {i : ℕ} {x y : κ}
    (hn : xs.Nodup) (hx : xs[i]? = some x) (hy : ys[i]? = some y) :
    (xs.zip ys).lookup x = some y := by
  induction xs generalizing ys i with
  | nil => cases hx
  | cons z xs ih =>
    cases ys with
    | nil => cases hy
    | cons w ys =>
      obtain ⟨hfresh, hrest⟩ := List.nodup_cons.mp hn
      cases i with
      | zero =>
        rw [List.getElem?_cons_zero] at hx hy
        cases hx
        cases hy
        exact List.lookup_cons_self
      | succ i =>
        rw [List.getElem?_cons_succ] at hx hy
        have hne : (x == z) = false := by
          refine beq_eq_false_iff_ne.mpr fun heq => hfresh ?_
          rw [← heq]
          exact List.mem_of_getElem? hx
        rw [List.zip_cons_cons, List.lookup_cons, hne]
        exact ih hrest hx hy

/-- The first rows that satisfy a condition stand at the same places in two lists whose rows
correspond. -/
theorem forall₂_picked {R : α → β → Prop} {p : α → Bool} {q : β → Bool} {κ : Type*} {key : α → κ}
    {key' : β → κ} (hpq : ∀ x y, R x y → p x = q y) {xs : List α} {ys : List β}
    (h : List.Forall₂ R xs ys) (hx : (xs.map key).Nodup) (hy : (ys.map key').Nodup) (n : ℕ) :
    List.Forall₂ (fun x y => R x y ∧ (key x ∈ ((xs.filter p).take n).map key ↔
      key' y ∈ ((ys.filter q).take n).map key')) xs ys := by
  induction h generalizing n with
  | nil => exact .nil
  | @cons x y xs ys hxy htail ih =>
    rw [List.map_cons, List.nodup_cons] at hx hy
    have hnot : ∀ m, key x ∉ ((xs.filter p).take m).map key := fun m hmem =>
      hx.1 ((((List.take_sublist m _).trans List.filter_sublist).map key).subset hmem)
    have hnot' : ∀ m, key' y ∉ ((ys.filter q).take m).map key' := fun m hmem =>
      hy.1 ((((List.take_sublist m _).trans List.filter_sublist).map key').subset hmem)
    have hsame := hpq x y hxy
    cases hp : p x with
    | false =>
      rw [List.filter_cons_of_neg (by rw [hp]; decide),
        List.filter_cons_of_neg (by rw [← hsame, hp]; decide)]
      exact .cons ⟨hxy, iff_of_false (hnot n) (hnot' n)⟩ (ih hx.2 hy.2 n)
    | true =>
      rw [List.filter_cons_of_pos hp, List.filter_cons_of_pos (hsame ▸ hp)]
      cases n with
      | zero =>
        refine .cons ⟨hxy, iff_of_false List.not_mem_nil List.not_mem_nil⟩ ?_
        exact htail.imp fun _ _ hR => ⟨hR, iff_of_false List.not_mem_nil List.not_mem_nil⟩
      | succ n =>
        rw [List.take_succ_cons, List.take_succ_cons, List.map_cons, List.map_cons]
        refine .cons ⟨hxy, iff_of_true List.mem_cons_self List.mem_cons_self⟩ ?_
        have hmem : List.Forall₂ (fun x' y' => key x' ∈ xs.map key ∧ key' y' ∈ ys.map key') xs ys :=
          List.forall₂_iff_zip.mpr ⟨htail.length_eq, fun hz =>
            ⟨List.mem_map_of_mem (List.of_mem_zip hz).1,
              List.mem_map_of_mem (List.of_mem_zip hz).2⟩⟩
        refine List.Forall₂.mp (fun x' y' hin hR => ⟨hR.1, ?_⟩) hmem (ih hx.2 hy.2 n)
        rw [List.mem_cons, List.mem_cons, hR.2]
        refine or_congr (iff_of_false (fun heq => ?_) fun heq => ?_) Iff.rfl
        · exact hx.1 (heq ▸ hin.1)
        · exact hy.1 (heq ▸ hin.2)
section KeyOrder

variable {κ : Type*} [LinearOrder κ]

/-- Sort by a key. -/
def sortBy (f : α → κ) (xs : List α) : List α := xs.insertionSort fun a b => f a ≤ f b

theorem sortBy_perm (f : α → κ) (xs : List α) : (sortBy f xs).Perm xs :=
  List.perm_insertionSort _ xs

@[simp] theorem mem_sortBy {f : α → κ} {xs : List α} {a : α} : a ∈ sortBy f xs ↔ a ∈ xs :=
  (sortBy_perm f xs).mem_iff

theorem sortBy_pairwise (f : α → κ) (xs : List α) :
    (sortBy f xs).Pairwise fun a b => f a ≤ f b := by
  have htrans : IsTrans α fun a b => f a ≤ f b := ⟨fun _ _ _ => le_trans⟩
  have htotal : Std.Total fun a b : α => f a ≤ f b := ⟨fun a b => le_total (f a) (f b)⟩
  exact List.pairwise_insertionSort _ xs

/-- Sorting any arrangement of a strictly ordered list gives the list. -/
theorem sortBy_eq_of_perm {f : α → κ} {xs ys : List α} (hp : xs.Perm ys)
    (hs : ys.Pairwise fun a b => f a < f b) : sortBy f xs = ys := by
  have hinj : ∀ a b, a ∈ ys → b ∈ ys → f a = f b → a = b := by
    intro a b ha hb hab
    by_contra hne
    have hsymm : Std.Symm fun x y : α => f x ≠ f y := ⟨fun _ _ h => h.symm⟩
    have hp : ys.Pairwise fun x y => f x ≠ f y := hs.imp fun h => h.ne
    exact hp.forall ha hb hne hab
  refine ((sortBy_perm f xs).trans hp).eq_of_pairwise ?_ (sortBy_pairwise f xs)
    (hs.imp le_of_lt)
  intro a b ha hb hab hba
  exact hinj a b (hp.mem_iff.mp (mem_sortBy.mp ha)) hb (le_antisymm hab hba)

/-- A list without repeated keys is strictly ordered once sorted. -/
theorem sortBy_strict {f : α → κ} {xs : List α} (hn : (xs.map f).Nodup) :
    (sortBy f xs).Pairwise fun a b => f a < f b := by
  have hne : (sortBy f xs).Pairwise fun a b => f a ≠ f b :=
    List.pairwise_map.mp (((sortBy_perm f xs).map f).nodup_iff.mpr hn)
  exact (hne.and (sortBy_pairwise f xs)).imp fun h => lt_of_le_of_ne h.2 h.1

/-- Two arrangements of rows with different keys sort to the same list. -/
theorem sortBy_congr {f : α → κ} {xs ys : List α} (hp : xs.Perm ys) (hn : (ys.map f).Nodup) :
    sortBy f xs = sortBy f ys :=
  sortBy_eq_of_perm (hp.trans (sortBy_perm f ys).symm) (sortBy_strict hn)

/-- What stands for sorted values is sorted by what it stands for. -/
theorem sortBy_map {g : β → κ} (f : α → β) (xs : List α) :
    sortBy g (xs.map f) = (sortBy (fun a => g (f a)) xs).map f :=
  (List.map_insertionSort _ _ f xs fun _ _ _ _ => Iff.rfl).symm

/-- In a strictly ordered list the members up to the last of its first `n` are those first `n`. -/
theorem mem_take_iff_le_last {f : α → κ} {xs : List α} (hs : xs.Pairwise fun a b => f a < f b)
    {n : ℕ} {a last : α} (hlast : (xs.take n).getLast? = some last) (ha : a ∈ xs) :
    a ∈ xs.take n ↔ f a ≤ f last := by
  have hsplit : xs.take n ++ xs.drop n = xs := List.take_append_drop n xs
  have hp := hs
  rw [← hsplit, List.pairwise_append] at hp
  have hmem : last ∈ xs.take n := List.mem_of_getLast? hlast
  constructor
  · intro hin
    obtain ⟨init, hinit⟩ : ∃ init, xs.take n = init ++ [last] := by
      rw [List.getLast?_eq_some_iff] at hlast
      exact hlast
    rw [hinit] at hin
    have hordered := hp.1
    rw [hinit, List.pairwise_append] at hordered
    rcases List.mem_append.mp hin with hin | hin
    · exact (hordered.2.2 a hin last List.mem_cons_self).le
    · rw [List.mem_singleton.mp hin]
  · intro hle
    by_contra hout
    rw [← hsplit] at ha
    rcases List.mem_append.mp ha with hin | hin
    · exact hout hin
    · exact absurd hle (hp.2.2 last hmem a hin).not_ge

end KeyOrder

end Relational
