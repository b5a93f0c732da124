/-
# Byte arrays

`Bytes n` is an array of fixed length, with its length as a field.  Messages are laid
out by copying pieces into a buffer of zeros (`put`) and read back by slices; what was
put is what is read (`slice_put`), and a piece elsewhere is not touched.  Numbers are
written with the least byte first.
-/
import Mathlib.Algebra.Order.Ring.Nat

/-- `[u8; n]`. -/
abbrev Bytes (n : ℕ) := { l : List UInt8 // l.length = n }

namespace Bytes

/-- `[0u8; n]`. -/
def zeros (n : ℕ) : Bytes n := ⟨List.replicate n 0, List.length_replicate⟩

/-- The first `n` bytes, filled up with zeros. -/
def ofList (n : ℕ) (l : List UInt8) : Bytes n :=
  ⟨(l ++ List.replicate n 0).take n, by
    rw [List.length_take, List.length_append, List.length_replicate]
    omega⟩

/-! ## Buffers -/

/-- `l[off..off + b.len()].copy_from_slice(b)`. -/
def put (l : List UInt8) (off : ℕ) (b : List UInt8) : List UInt8 :=
  l.take off ++ b ++ l.drop (off + b.length)

/-- `&l[off..off + n]`. -/
def slice (l : List UInt8) (off n : ℕ) : List UInt8 := (l.drop off).take n

theorem length_slice {l : List UInt8} {off n : ℕ} (h : off + n ≤ l.length) :
    (slice l off n).length = n := by
  rw [slice, List.length_take, List.length_drop]
  omega

theorem length_put {l : List UInt8} {off : ℕ} {b : List UInt8} (h : off + b.length ≤ l.length) :
    (put l off b).length = l.length := by
  rw [put, List.length_append, List.length_append, List.length_take, List.length_drop]
  omega

/-- **What was put is what is read.** -/
theorem slice_put {l : List UInt8} {off n : ℕ} {b : List UInt8} (hn : n = b.length)
    (h : off + b.length ≤ l.length) : slice (put l off b) off n = b := by
  have hoff : (l.take off).length = off := by
    rw [List.length_take]
    omega
  rw [slice, put, List.append_assoc, List.drop_left' hoff, hn, List.take_left]

/-- A slice before the piece that was put. -/
theorem slice_put_before {l : List UInt8} {off o n : ℕ} {b : List UInt8} (hn : o + n ≤ off)
    (h : off + b.length ≤ l.length) : slice (put l off b) o n = slice l o n := by
  have hoff : (l.take off).length = off := by
    rw [List.length_take]
    omega
  rw [slice, slice, put, List.append_assoc, List.drop_append_of_le_length (by omega),
    List.take_append_of_le_length (by rw [List.length_drop]; omega), List.drop_take,
    List.take_take, min_eq_left (by omega)]

/-- A slice behind a first part. -/
theorem slice_append (pre l : List UInt8) (i n : ℕ) :
    slice (pre ++ l) (pre.length + i) n = slice l i n := by
  rw [slice, slice, List.drop_append, List.drop_eq_nil_of_le (by omega), List.nil_append,
    Nat.add_sub_cancel_left]

/-- The piece between two parts. -/
theorem slice_middle {pre x post : List UInt8} {off n : ℕ} (hoff : pre.length = off)
    (hn : x.length = n) : slice (pre ++ (x ++ post)) off n = x := by
  rw [slice, List.drop_left' hoff, List.take_left' hn]

/-- The piece between two parts is replaced. -/
theorem put_middle {pre x b post : List UInt8} {off : ℕ} (hoff : pre.length = off)
    (hlen : x.length = b.length) : put (pre ++ (x ++ post)) off b = pre ++ (b ++ post) := by
  have hdrop : (pre ++ (x ++ post)).drop (off + b.length) = post := by
    rw [← List.append_assoc]
    exact List.drop_left' (by rw [List.length_append, hoff, hlen])
  rw [put, List.take_left' hoff, hdrop, List.append_assoc]

/-- A slice, and what follows it. -/
theorem drop_eq_slice_append (l : List UInt8) (off n : ℕ) :
    l.drop off = slice l off n ++ l.drop (off + n) := by
  rw [slice, ← List.drop_drop, List.take_append_drop]

/-- Pieces that are put one after the other. -/
def puts (l : List UInt8) (pieces : List (ℕ × List UInt8)) : List UInt8 :=
  pieces.foldl (fun l p => put l p.1 p.2) l

theorem length_puts {pieces : List (ℕ × List UInt8)} :
    ∀ {l : List UInt8}, (∀ p ∈ pieces, p.1 + p.2.length ≤ l.length) →
      (puts l pieces).length = l.length := by
  induction pieces with
  | nil => exact fun _ => rfl
  | cons p ps ih =>
    intro l hfit
    have hput := length_put (hfit p List.mem_cons_self)
    change (puts (put l p.1 p.2) ps).length = l.length
    rw [ih fun q hq => by rw [hput]; exact hfit q (List.mem_cons_of_mem p hq), hput]

theorem slice_puts_before {pieces : List (ℕ × List UInt8)} {o n : ℕ} :
    ∀ {l : List UInt8}, (∀ p ∈ pieces, o + n ≤ p.1 ∧ p.1 + p.2.length ≤ l.length) →
      slice (puts l pieces) o n = slice l o n := by
  induction pieces with
  | nil => exact fun _ => rfl
  | cons p ps ih =>
    intro l hp
    obtain ⟨hbefore, hfit⟩ := hp p List.mem_cons_self
    change slice (puts (put l p.1 p.2) ps) o n = slice l o n
    rw [ih fun q hq => ?_, slice_put_before hbefore hfit]
    rw [length_put hfit]
    exact hp q (List.mem_cons_of_mem p hq)

/-- **Every piece is read back**, when the pieces follow one another and fit. -/
theorem slice_puts {pieces : List (ℕ × List UInt8)} {off : ℕ} {b : List UInt8} :
    ∀ {l : List UInt8}, pieces.Pairwise (fun p q => p.1 + p.2.length ≤ q.1) →
      (∀ p ∈ pieces, p.1 + p.2.length ≤ l.length) → (off, b) ∈ pieces →
      slice (puts l pieces) off b.length = b := by
  induction pieces with
  | nil => exact fun _ _ hmem => by cases hmem
  | cons p ps ih =>
    intro l hdisj hfit hmem
    have hp := hfit p List.mem_cons_self
    have hrest : ∀ q ∈ ps, q.1 + q.2.length ≤ (put l p.1 p.2).length := by
      intro q hq
      rw [length_put hp]
      exact hfit q (List.mem_cons_of_mem p hq)
    rw [List.pairwise_cons] at hdisj
    change slice (puts (put l p.1 p.2) ps) off b.length = b
    rcases List.mem_cons.mp hmem with rfl | hmem
    · rw [slice_puts_before fun q hq => ⟨hdisj.1 q hq, hrest q hq⟩, slice_put rfl hp]
    · exact ih hdisj.2 hrest hmem

/-- A byte of the buffer, by its slice. -/
theorem getD_eq_slice (l : List UInt8) (i : ℕ) : l.getD i 0 = (slice l i 1).getD 0 0 := by
  rw [slice, List.getD_eq_getElem?_getD, List.getD_eq_getElem?_getD,
    List.getElem?_take_of_lt Nat.zero_lt_one, List.getElem?_drop, Nat.add_zero]

theorem slice_one {l : List UInt8} {i : ℕ} (h : i < l.length) : slice l i 1 = [l.getD i 0] := by
  have hlen : (slice l i 1).length = 1 := length_slice h
  obtain ⟨b, hb⟩ := List.length_eq_one_iff.mp hlen
  rw [getD_eq_slice, hb]
  rfl

theorem getD_eq_of_slice {l l' : List UInt8} {i : ℕ} (h : slice l i 1 = slice l' i 1) :
    l.getD i 0 = l'.getD i 0 := by
  rw [getD_eq_slice l, getD_eq_slice l', h]

/-! ## Numbers -/

/-- The number that the bytes stand for, the least first. -/
def toNat : List UInt8 → ℕ
  | [] => 0
  | b :: l => b.toNat + 256 * toNat l

/-- The `n` bytes of a number, the least first. -/
def ofNat : ℕ → ℕ → List UInt8
  | 0, _ => []
  | n + 1, x => UInt8.ofNat x :: ofNat n (x / 256)

theorem length_ofNat (n x : ℕ) : (ofNat n x).length = n := by
  induction n generalizing x with
  | zero => rfl
  | succ n ih => rw [ofNat, List.length_cons, ih]

/-- **Round trip of numbers.** -/
theorem toNat_ofNat {n x : ℕ} (h : x < 256 ^ n) : toNat (ofNat n x) = x := by
  induction n generalizing x with
  | zero =>
    rw [pow_zero] at h
    exact (Nat.lt_one_iff.mp h).symm
  | succ n ih =>
    rw [pow_succ] at h
    rw [ofNat, toNat, ih (Nat.div_lt_of_lt_mul (by omega)), UInt8.toNat_ofNat']
    omega

theorem toNat_lt (l : List UInt8) : toNat l < 256 ^ l.length := by
  induction l with
  | nil => exact Nat.one_pos
  | cons b l ih =>
    have hb := b.toNat_lt
    rw [toNat, List.length_cons, pow_succ]
    omega

/-- The number that the bytes stand for, the greatest first. -/
def toNatBe (l : List UInt8) : ℕ := toNat l.reverse

/-- The `n` bytes of a number, the greatest first. -/
def ofNatBe (n x : ℕ) : List UInt8 := (ofNat n x).reverse

@[simp] theorem length_ofNatBe (n x : ℕ) : (ofNatBe n x).length = n := by
  rw [ofNatBe, List.length_reverse, length_ofNat]

theorem toNatBe_lt (l : List UInt8) : toNatBe l < 256 ^ l.length := by
  rw [toNatBe, ← List.length_reverse]
  exact toNat_lt _

theorem toNatBe_ofNatBe {n x : ℕ} (h : x < 256 ^ n) : toNatBe (ofNatBe n x) = x := by
  rw [toNatBe, ofNatBe, List.reverse_reverse, toNat_ofNat h]

theorem ofNat_toNat (l : List UInt8) : ofNat l.length (toNat l) = l := by
  induction l with
  | nil => rfl
  | cons b l ih =>
    have hb := b.toNat_lt
    have hlow : UInt8.ofNat (b.toNat + 256 * toNat l) = b := by
      rw [← UInt8.toNat_inj, UInt8.toNat_ofNat']
      omega
    have hhigh : (b.toNat + 256 * toNat l) / 256 = toNat l := by omega
    rw [List.length_cons, toNat, ofNat, hlow, hhigh, ih]

theorem ofNatBe_toNatBe (l : List UInt8) : ofNatBe l.length (toNatBe l) = l := by
  rw [ofNatBe, toNatBe, ← List.length_reverse, ofNat_toNat, List.reverse_reverse]

/-! ## Chunks -/

/-- The chunks so far, the one that is filled, and what is left. -/
theorem flatten_toChunks_go {α : Type} (n : ℕ) (xs : List α) :
    ∀ (acc : Array α) (done : Array (List α)),
      (List.toChunks.go n xs acc done).flatten = done.toList.flatten ++ (acc.toList ++ xs) := by
  induction xs with
  | nil =>
    intro acc done
    have hnil : List.toChunks.go n [] acc done = (done.push acc.toList).toList := rfl
    rw [hnil, Array.toList_push, List.flatten_append, List.flatten_singleton, List.append_nil]
  | cons x xs ih =>
    intro acc done
    have hcons : List.toChunks.go n (x :: xs) acc done =
        if acc.size == n then
          List.toChunks.go n xs ((Array.mkEmpty n).push x) (done.push acc.toList)
        else List.toChunks.go n xs (acc.push x) done := rfl
    rw [hcons]
    split
    · rw [ih]
      simp
    · rw [ih]
      simp

/-- The chunks of a list are the list. -/
theorem flatten_toChunks {α : Type} (n : ℕ) (l : List α) : (l.toChunks n).flatten = l := by
  cases l with
  | nil => cases n <;> rfl
  | cons x xs =>
    cases n with
    | zero => exact List.flatten_singleton
    | succ n =>
      have hgo : (x :: xs).toChunks (n + 1) = List.toChunks.go (n + 1) xs #[x] #[] := rfl
      rw [hgo, flatten_toChunks_go]
      rfl

/-- A chunk takes elements until it is full. -/
theorem toChunks_go_append {α : Type} {n : ℕ} (xs : List α) {rest : List α} {acc : Array α}
    {done : Array (List α)} (h : acc.size + rest.length ≤ n) :
    List.toChunks.go n (rest ++ xs) acc done =
      List.toChunks.go n xs (acc ++ rest.toArray) done := by
  induction rest generalizing acc with
  | nil => simp
  | cons x rest ih =>
    rw [List.length_cons] at h
    have hstep : List.toChunks.go n (x :: (rest ++ xs)) acc done =
        if acc.size == n then
          List.toChunks.go n (rest ++ xs) ((Array.mkEmpty n).push x) (done.push acc.toList)
        else List.toChunks.go n (rest ++ xs) (acc.push x) done := rfl
    rw [List.cons_append, hstep, if_neg (by simp; omega), ih (by simp; omega)]
    simp

/-- The chunks that are done come first. -/
theorem toChunks_go_done {α : Type} (n : ℕ) (xs : List α) (acc : Array α)
    (done : Array (List α)) :
    List.toChunks.go n xs acc done = done.toList ++ List.toChunks.go n xs acc #[] := by
  induction xs generalizing acc done with
  | nil =>
    have hnil : ∀ d : Array (List α),
        List.toChunks.go n [] acc d = (d.push acc.toList).toList := fun _ => rfl
    rw [hnil, hnil]
    simp
  | cons x xs ih =>
    have hstep : ∀ d : Array (List α), List.toChunks.go n (x :: xs) acc d =
        if acc.size == n then
          List.toChunks.go n xs ((Array.mkEmpty n).push x) (d.push acc.toList)
        else List.toChunks.go n xs (acc.push x) d := fun _ => rfl
    rw [hstep, hstep]
    split
    · rw [ih _ (done.push acc.toList), ih _ (#[].push acc.toList)]
      simp
    · exact ih _ done

/-- What fits into one chunk is one. -/
theorem toChunks_of_length_le {α : Type} {n : ℕ} {l : List α} (hne : l ≠ [])
    (h : l.length ≤ n) : l.toChunks n = [l] := by
  obtain ⟨x, l, rfl⟩ := List.exists_cons_of_ne_nil hne
  rw [List.length_cons] at h
  obtain ⟨n, rfl⟩ : ∃ m, n = m + 1 := ⟨n - 1, by omega⟩
  have hgo : (x :: l).toChunks (n + 1) = List.toChunks.go (n + 1) (l ++ []) #[x] #[] := by
    rw [List.append_nil]
    rfl
  rw [hgo, toChunks_go_append [] (by simp; omega)]
  have hnil : ∀ acc : Array α,
      List.toChunks.go (n + 1) [] acc #[] = (#[acc.toList] : Array (List α)).toList := fun _ => rfl
  rw [hnil]
  simp

/-- **The first chunk, and the chunks of what follows it.** -/
theorem toChunks_append {α : Type} {n : ℕ} (hn : 0 < n) {c : List α} (h : c.length = n)
    (xs : List α) : (c ++ xs).toChunks n = c :: xs.toChunks n := by
  have hpos : 0 < c.length := by omega
  obtain ⟨x, c, rfl⟩ := List.exists_cons_of_length_pos hpos
  cases xs with
  | nil =>
    rw [List.append_nil, toChunks_of_length_le (List.cons_ne_nil x c) h.le]
    cases n <;> rfl
  | cons y xs =>
    rw [List.length_cons] at h
    obtain ⟨n, rfl⟩ : ∃ m, n = m + 1 := ⟨n - 1, by omega⟩
    have hgo : ((x :: c) ++ y :: xs).toChunks (n + 1) =
        List.toChunks.go (n + 1) (c ++ y :: xs) #[x] #[] := rfl
    have hfull : ∀ acc : Array α, acc.size = n + 1 →
        List.toChunks.go (n + 1) (y :: xs) acc #[] =
          List.toChunks.go (n + 1) xs #[y] #[acc.toList] := by
      intro acc hacc
      have hstep : List.toChunks.go (n + 1) (y :: xs) acc #[] =
          if acc.size == n + 1 then
            List.toChunks.go (n + 1) xs ((Array.mkEmpty (n + 1)).push y) (#[].push acc.toList)
          else List.toChunks.go (n + 1) xs (acc.push y) #[] := rfl
      rw [hstep, if_pos (by simp [hacc])]
      rfl
    have hrest : (y :: xs).toChunks (n + 1) = List.toChunks.go (n + 1) xs #[y] #[] := rfl
    rw [hgo, toChunks_go_append _ (by simp; omega), hfull _ (by simp; omega),
      toChunks_go_done, hrest]
    simp

/-- Induction over the chunks of a list: the last one, and one in front of others. -/
theorem chunk_induction {α : Type} {n : ℕ} (hn : 0 < n) {P : List α → Prop} (nil : P [])
    (last : ∀ c, c ≠ [] → c.length ≤ n → P c)
    (append : ∀ c xs, c.length = n → P xs → P (c ++ xs)) (l : List α) : P l := by
  obtain ⟨k, hk⟩ : ∃ k, l.length ≤ k := ⟨_, le_rfl⟩
  induction k generalizing l with
  | zero =>
    rw [List.eq_nil_of_length_eq_zero (Nat.le_zero.mp hk)]
    exact nil
  | succ k ih =>
    by_cases hnil : l = []
    · rw [hnil]
      exact nil
    by_cases hlen : l.length ≤ n
    · exact last l hnil hlen
    · rw [← List.take_append_drop n l]
      apply append
      · exact List.length_take_of_le (by omega)
      · exact ih _ (by rw [List.length_drop]; omega)

/-- **Whole chunks are the chunks of what they make up.** -/
theorem toChunks_flatten {α : Type} {n : ℕ} (hn : 0 < n) {chunks : List (List α)}
    (hlen : ∀ c ∈ chunks, c.length = n) : chunks.flatten.toChunks n = chunks := by
  induction chunks with
  | nil => cases n <;> rfl
  | cons c chunks ih =>
    rw [List.flatten_cons, toChunks_append hn (hlen c List.mem_cons_self),
      ih fun d hd => hlen d (List.mem_cons_of_mem c hd)]

end Bytes
