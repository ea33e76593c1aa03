import LearnedIndex.Alexol.Slots

/-! # Slot arrays as functions of the position

A `View` forgets how a slot array is stored: a capacity and, for every position, the key slot,
the payload slot and the bit.  `Reps s v` says that the arrays `s` have the sizes the source
allocates and read as `v`.  Each routine of `Slots` that writes is matched here with the update
it makes on the view (`Function.update`), so that later modules reason about functions and never
about lists or words. -/

namespace LearnedIndex.Alexol

open LearnedIndex.Words

/-- What a slot array holds, position by position. -/
structure View (P : Type) where
  cap : ℕ
  key : ℕ → Option ℤ
  pay : ℕ → Option P
  bit : ℕ → Bool

namespace View
variable {P : Type}

def setKey (v : View P) (i : ℕ) (k : ℤ) : View P :=
  { v with key := Function.update v.key i (some k) }

def setPay (v : View P) (i : ℕ) (p : P) : View P :=
  { v with pay := Function.update v.pay i (some p) }

def setBit (v : View P) (i : ℕ) (b : Bool) : View P :=
  { v with bit := Function.update v.bit i b }

def copy (v : View P) (dst src : ℕ) : View P :=
  { v with
    key := Function.update v.key dst (v.key src)
    pay := Function.update v.pay dst (v.pay src) }

/-- Write a pair and mark its position as filled. -/
def put (v : View P) (i : ℕ) (k : ℤ) (p : P) : View P :=
  ((v.setKey i k).setPay i p).setBit i true

@[simp] theorem setKey_cap (v : View P) (i : ℕ) (k : ℤ) : (v.setKey i k).cap = v.cap := rfl
@[simp] theorem setPay_cap (v : View P) (i : ℕ) (p : P) : (v.setPay i p).cap = v.cap := rfl
@[simp] theorem setBit_cap (v : View P) (i : ℕ) (b : Bool) : (v.setBit i b).cap = v.cap := rfl
@[simp] theorem copy_cap (v : View P) (dst src : ℕ) : (v.copy dst src).cap = v.cap := rfl
@[simp] theorem put_cap (v : View P) (i : ℕ) (k : ℤ) (p : P) : (v.put i k p).cap = v.cap := rfl

end View

/-- The arrays have their sizes and read as the view. -/
structure Reps {P : Type} (s : Slots P) (v : View P) : Prop where
  cap : s.dataCapacity = v.cap
  pos : 0 < v.cap
  keyLen : s.keySlots.length = v.cap
  payLen : s.payloadSlots.length = v.cap
  size : s.bitmapSize = (v.cap + 63) / 64
  bmLen : s.bitmap.length = s.bitmapSize
  key : ∀ i, s.keyAt i = v.key i
  pay : ∀ i, s.payloadAt i = v.pay i
  bit : ∀ i, bitAt s.bitmap i = v.bit i
  clear : ∀ i, v.cap ≤ i → v.bit i = false

namespace Reps

variable {P : Type} {s : Slots P} {v : View P}

theorem div_lt (h : Reps s v) {pos : ℕ} (hp : pos < v.cap) : pos / 64 < s.bitmap.length := by
  rw [h.bmLen, h.size]
  omega

theorem shift_div (pos : ℕ) : pos >>> 6 = pos / 64 := by
  rw [Nat.shiftRight_eq_div_pow]

theorem shift_mod (pos : ℕ) : pos - ((pos / 64) <<< 6) = pos % 64 := by
  rw [Nat.shiftLeft_eq]
  omega

/-- The word that holds a position below the capacity. -/
theorem word (h : Reps s v) {pos : ℕ} (hp : pos < v.cap) :
    ∃ w, s.bitmap[pos / 64]? = some w ∧ v.bit pos = w.getLsbD (pos % 64) := by
  refine ⟨_, List.getElem?_eq_getElem (h.div_lt hp), ?_⟩
  rw [← h.bit]
  exact bitAt_eq (List.getElem?_eq_getElem (h.div_lt hp))

theorem checkExists (h : Reps s v) {pos : ℕ} (hp : pos < v.cap) :
    s.checkExists pos = some (v.bit pos) := by
  obtain ⟨w, hw, hb⟩ := h.word hp
  unfold Slots.checkExists
  simp only [shift_mod, shift_div, hw, Option.bind_eq_bind, Option.bind_some]
  rw [and_one_shiftLeft_ne_zero _ (Nat.mod_lt _ (by omega)), hb]

theorem keyAt_set (s : Slots P) (i : ℕ) (x : Option ℤ) (hi : i < s.keySlots.length) (j : ℕ) :
    ({ s with keySlots := s.keySlots.set i x } : Slots P).keyAt j =
      Function.update s.keyAt i x j := by
  unfold Slots.keyAt
  rw [List.getElem?_set]
  by_cases h : i = j
  · subst h
    simp [hi]
  · simp [h, Function.update_of_ne (Ne.symm h)]

theorem payloadAt_set (s : Slots P) (i : ℕ) (x : Option P) (hi : i < s.payloadSlots.length)
    (j : ℕ) : ({ s with payloadSlots := s.payloadSlots.set i x } : Slots P).payloadAt j =
      Function.update s.payloadAt i x j := by
  unfold Slots.payloadAt
  rw [List.getElem?_set]
  by_cases h : i = j
  · subst h
    simp [hi]
  · simp [h, Function.update_of_ne (Ne.symm h)]

theorem funKey (h : Reps s v) : s.keyAt = v.key := funext h.key

theorem funPay (h : Reps s v) : s.payloadAt = v.pay := funext h.pay

/-! ### Writes -/

theorem setKey (h : Reps s v) {pos : ℕ} (hp : pos < v.cap) (k : ℤ) :
    ∃ s', s.setKey pos k = some s' ∧ Reps s' (v.setKey pos k) := by
  have hlt : pos < s.keySlots.length := by rw [h.keyLen]; exact hp
  refine ⟨{ s with keySlots := s.keySlots.set pos (some k) }, by simp [Slots.setKey, hlt], ?_⟩
  refine ⟨h.cap, h.pos, by simpa using h.keyLen, h.payLen, h.size, h.bmLen, ?_, h.pay, h.bit,
    h.clear⟩
  intro i
  rw [keyAt_set s pos _ hlt, h.funKey]
  rfl

theorem setPayload (h : Reps s v) {pos : ℕ} (hp : pos < v.cap) (p : P) :
    ∃ s', s.setPayload pos p = some s' ∧ Reps s' (v.setPay pos p) := by
  have hlt : pos < s.payloadSlots.length := by rw [h.payLen]; exact hp
  refine ⟨{ s with payloadSlots := s.payloadSlots.set pos (some p) },
    by simp [Slots.setPayload, hlt], ?_⟩
  refine ⟨h.cap, h.pos, h.keyLen, by simpa using h.payLen, h.size, h.bmLen, h.key, ?_, h.bit,
    h.clear⟩
  intro i
  rw [payloadAt_set s pos _ hlt, h.funPay]
  rfl

theorem setBit (h : Reps s v) {pos : ℕ} (hp : pos < v.cap) :
    ∃ s', s.setBit pos = some s' ∧ Reps s' (v.setBit pos true) := by
  obtain ⟨w, hw, _⟩ := h.word hp
  refine ⟨{ s with bitmap := s.bitmap.set (pos / 64) (w ||| (1#64 <<< (pos % 64))) }, ?_, ?_⟩
  · unfold Slots.setBit
    simp only [shift_mod, shift_div, hw, Option.bind_eq_bind, Option.bind_some]
  · have hbit : ∀ i, bitAt (s.bitmap.set (pos / 64) (w ||| (1#64 <<< (pos % 64)))) i =
        Function.update v.bit pos true i := by
      intro i
      rw [bitAt_setOne hw, h.bit]
      by_cases hi : i = pos
      · simp [hi]
      · simp [hi, Function.update_of_ne]
    refine ⟨h.cap, h.pos, h.keyLen, h.payLen, h.size, by simpa using h.bmLen, h.key,
      h.pay, hbit, ?_⟩
    intro i hi
    have hv : v.cap ≤ i := hi
    have hne : i ≠ pos := by omega
    show Function.update v.bit pos true i = false
    rw [Function.update_of_ne hne]
    exact h.clear i hv

theorem unsetBit (h : Reps s v) {pos : ℕ} (hp : pos < v.cap) :
    ∃ s', s.unsetBit pos = some s' ∧ Reps s' (v.setBit pos false) := by
  obtain ⟨w, hw, _⟩ := h.word hp
  refine ⟨{ s with bitmap := s.bitmap.set (pos / 64) (w &&& ~~~(1#64 <<< (pos % 64))) }, ?_, ?_⟩
  · unfold Slots.unsetBit
    simp only [shift_mod, shift_div, hw, Option.bind_eq_bind, Option.bind_some]
  · have hbit : ∀ i, bitAt (s.bitmap.set (pos / 64) (w &&& ~~~(1#64 <<< (pos % 64)))) i =
        Function.update v.bit pos false i := by
      intro i
      rw [bitAt_clearOne hw, h.bit]
      by_cases hi : i = pos
      · simp [hi]
      · simp [hi, Function.update_of_ne]
    refine ⟨h.cap, h.pos, h.keyLen, h.payLen, h.size, by simpa using h.bmLen, h.key,
      h.pay, hbit, ?_⟩
    intro i hi
    have hv : v.cap ≤ i := hi
    have hne : i ≠ pos := by omega
    show Function.update v.bit pos false i = false
    rw [Function.update_of_ne hne]
    exact h.clear i hv

theorem copySlot (h : Reps s v) {dst src : ℕ} (hd : dst < v.cap) (hs : src < v.cap) :
    ∃ s', s.copySlot dst src = some s' ∧ Reps s' (v.copy dst src) := by
  have hsk : src < s.keySlots.length := by rw [h.keyLen]; exact hs
  have hsp : src < s.payloadSlots.length := by rw [h.payLen]; exact hs
  have hdk : dst < s.keySlots.length := by rw [h.keyLen]; exact hd
  have hdp : dst < s.payloadSlots.length := by rw [h.payLen]; exact hd
  refine ⟨{ s with
      keySlots := s.keySlots.set dst s.keySlots[src]
      payloadSlots := s.payloadSlots.set dst s.payloadSlots[src] }, ?_, ?_⟩
  · unfold Slots.copySlot
    simp [List.getElem?_eq_getElem hsk, List.getElem?_eq_getElem hsp, hdk, hdp]
  · have hkey : s.keySlots[src] = v.key src := by
      rw [← h.key, Slots.keyAt, List.getElem?_eq_getElem hsk]
      rfl
    have hpay : s.payloadSlots[src] = v.pay src := by
      rw [← h.pay, Slots.payloadAt, List.getElem?_eq_getElem hsp]
      rfl
    refine ⟨h.cap, h.pos, by simpa using h.keyLen, by simpa using h.payLen, h.size, h.bmLen,
      ?_, ?_, h.bit, h.clear⟩
    · intro i
      have := keyAt_set s dst (s.keySlots[src]) hdk i
      rw [h.funKey, hkey] at this
      rw [hkey]
      exact this
    · intro i
      have := payloadAt_set s dst (s.payloadSlots[src]) hdp i
      rw [h.funPay, hpay] at this
      rw [hpay]
      exact this

theorem putAt (h : Reps s v) {pos : ℕ} (hp : pos < v.cap) (k : ℤ) (p : P) :
    ∃ s', s.putAt pos k p = some s' ∧ Reps s' (v.put pos k p) := by
  obtain ⟨s₁, e₁, h₁⟩ := h.setKey hp k
  have hp₁ : pos < (v.setKey pos k).cap := hp
  obtain ⟨s₂, e₂, h₂⟩ := h₁.setPayload hp₁ p
  have hp₂ : pos < ((v.setKey pos k).setPay pos p).cap := hp
  obtain ⟨s₃, e₃, h₃⟩ := h₂.setBit hp₂
  refine ⟨s₃, ?_, h₃⟩
  unfold Slots.putAt
  simp only [e₁, e₂, e₃, Option.bind_eq_bind, Option.bind_some]

/-- The number of set bits is the number of filled positions. -/
theorem ones (h : Reps s v) : Words.ones s.bitmap = Nat.count (fun i => v.bit i = true) v.cap := by
  have hle : v.cap ≤ 64 * s.bitmap.length := by
    rw [h.bmLen, h.size]
    omega
  have hclear : ∀ i, v.cap ≤ i → bitAt s.bitmap i = false := by
    intro i hi
    rw [h.bit]
    exact h.clear i hi
  rw [ones_eq_count_of_clear hle hclear]
  simp only [h.bit]

/-- The view determines the arrays. -/
theorem ext {s' : Slots P} (h : Reps s v) (h' : Reps s' v) : s = s' := by
  have hkeys : s.keySlots = s'.keySlots := by
    have hl := h.keyLen.trans h'.keyLen.symm
    refine List.ext_getElem hl (fun i hi hi' => ?_)
    have hk := (h.key i).trans (h'.key i).symm
    unfold Slots.keyAt at hk
    rwa [List.getElem?_eq_getElem hi, List.getElem?_eq_getElem hi', Option.join_some,
      Option.join_some] at hk
  have hpays : s.payloadSlots = s'.payloadSlots := by
    have hl := h.payLen.trans h'.payLen.symm
    refine List.ext_getElem hl (fun i hi hi' => ?_)
    have hp := (h.pay i).trans (h'.pay i).symm
    unfold Slots.payloadAt at hp
    rwa [List.getElem?_eq_getElem hi, List.getElem?_eq_getElem hi', Option.join_some,
      Option.join_some] at hp
  have hsize : s.bitmapSize = s'.bitmapSize := h.size.trans h'.size.symm
  have hbits : s.bitmap = s'.bitmap :=
    bitmap_ext (by rw [h.bmLen, h'.bmLen, hsize]) (fun i => (h.bit i).trans (h'.bit i).symm)
  have hcap : s.dataCapacity = s'.dataCapacity := h.cap.trans h'.cap.symm
  obtain ⟨c, b, ks, ps, bm⟩ := s
  obtain ⟨c', b', ks', ps', bm'⟩ := s'
  simp only at hkeys hpays hsize hbits hcap
  rw [hkeys, hpays, hsize, hbits, hcap]

end Reps

end LearnedIndex.Alexol
