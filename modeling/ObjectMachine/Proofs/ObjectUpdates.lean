/-
  ObjectMachine/Proofs/ObjectUpdates.lean
  =======================================
  **Changing and adding objects** — how the bytes follow the ideal store.

  A change of one object leaves all others alone, since no two overlap, and an object that
  is added lies above all others.  So each operation has to be understood for the bytes of
  its own object only.
-/
import ObjectMachine.Proofs.MemoryCollection

namespace ObjectMachine

/-- Every meaning that a value has under one placement it has under the other. -/
def Placement.Extends (η' η : Placement) : Prop := ∀ id r, η id = some r → η' id = some r

theorem Placement.Extends.word? {η η' : Placement} (h : η'.Extends η) {v : Value} {w : Word}
    (word : η.word? v = some w) : η'.word? v = some w := by
  cases v with
  | raw x => exact word
  | object id =>
    have placed := Placement.word?_object_eq_some word
    exact Placement.word?_object (h id _ placed)

theorem Placement.extends_update {η : Placement} {id : Nat} (new : η id = none) (r : Ref) :
    Placement.Extends (Function.update η id (some r)) η := by
  intro id' r' placed
  have ne : id' ≠ id := by
    rintro rfl
    rw [new] at placed
    cases placed
  rw [Function.update_of_ne ne]
  exact placed

/-! ### One object -/

namespace ShowsObject

variable {b b' : Bytes} {η η' : Placement} {r : Ref} {o : Entity}

theorem nonnull (h : ShowsObject b η r o) : r ≠ Ref.null := by
  obtain ⟨size, c, read, -⟩ := h.header
  exact ((Header.read?_eq_some_iff _ _ _).1 read).1

/-- What an object shows depends on its own bytes only. -/
theorem congr (h : ShowsObject b η r o)
    (same : Bytes.Same b' (r.offset 0) b (r.offset 0) o.content.extent) :
    ShowsObject b' η r o := by
  have long := o.content.header_le_extent
  refine ⟨?header, ?fields, ?payload⟩
  case header =>
    obtain ⟨size, c, read, length, cls⟩ := h.header
    refine ⟨size, c, ?_, length, cls⟩
    rw [Header.read?_congr same long h.nonnull h.nonnull]
    exact read
  case fields =>
    intro i v field
    obtain ⟨w, value, word⟩ := h.fields i v field
    refine ⟨w, value, ?_⟩
    rw [← word]
    cases content : o.content with
    | bytes xs =>
      rw [content] at field
      cases field
    | fields values =>
      have hi : i < values.length := by
        rw [content] at field
        exact (List.getElem?_eq_some_iff.1 field).1
      rw [content] at same
      exact same.word? (11 + i * 4) (by simp only [Content.extent]; omega)
  case payload =>
    intro xs content i hi
    rw [← h.payload xs content i hi]
    rw [content] at same
    exact same (11 + i) (by simp only [Content.extent]; omega)

theorem mono (h : ShowsObject b η r o) (more : η'.Extends η) : ShowsObject b η' r o := by
  refine ⟨?_, ?_, h.payload⟩
  · obtain ⟨size, c, read, length, cls⟩ := h.header
    exact ⟨size, c, read, length, more.word? cls⟩
  · intro i v field
    obtain ⟨w, value, word⟩ := h.fields i v field
    exact ⟨w, more.word? value, word⟩

section Writes

variable (h : ShowsObject b η r o) (fits : r.offset o.content.extent ≤ b.size)
include h fits

/-- A write to the payload leaves the header alone. -/
theorem header_overwrite {p : Nat} {xs : List UInt8} (low : r.offset 11 ≤ p)
    (high : p + xs.length ≤ r.offset o.content.extent) :
    Header.read? (b.overwrite p xs) r = Header.read? b r := by
  have stop : r.offset o.content.extent = r.offset 0 + o.content.extent := rfl
  have at11 : r.offset 11 = r.offset 0 + 11 := rfl
  have same := Bytes.same_overwrite b p xs (r.offset 0) 11 (by omega) (by omega)
  exact Header.read?_congr same (Nat.le_refl _) h.nonnull h.nonnull

theorem setField {values : List Value} (content : o.content = .fields values) {i : Nat}
    (hi : i < values.length) {v : Value} {w : Word} (value : η.word? v = some w) :
    ShowsObject (Object.setField b r i w) η r { o with content := .fields (values.set i v) } := by
  have stop : r.offset o.content.extent = r.offset 0 + (11 + values.length * 4) := by
    rw [content]
    rfl
  have start : fieldOffset r i = r.offset 0 + (11 + i * 4) := rfl
  have at11 : r.offset 11 = r.offset 0 + 11 := rfl
  have four := Word.length_bytes w
  refine ⟨?header, ?fields, ?payload⟩
  case header =>
    obtain ⟨size, c, read, length, cls⟩ := h.header
    refine ⟨size, c, ?_, ?_, cls⟩
    · rw [Object.setField, h.header_overwrite fits (by omega) (by omega), read, content]
      rfl
    · rw [length, content]
      simp only [Content.length, List.length_set]
  case fields =>
    intro j v' field
    simp only [Content.values, List.getElem?_set] at field
    by_cases same : i = j
    · subst same
      rw [if_pos rfl, if_pos hi] at field
      cases field
      exact ⟨w, value, Bytes.word?_overwrite_self _ _ _ (by omega)⟩
    · rw [if_neg same] at field
      have field' : o.content.values[j]? = some v' := by
        rw [content]
        exact field
      obtain ⟨w', value', word⟩ := h.fields j v' field'
      refine ⟨w', value', ?_⟩
      rw [← word]
      have start' : fieldOffset r j = r.offset 0 + (11 + j * 4) := rfl
      exact Bytes.word?_overwrite_of_apart _ _ _ _ (by omega) (by omega)
  case payload =>
    intro xs eq
    cases eq

theorem setPayload {old : List UInt8} (content : o.content = .bytes old) {start : Nat}
    {xs : List UInt8} (high : start + xs.length ≤ old.length) :
    ShowsObject (Object.setPayload b r start xs) η r
      { o with content := .bytes (old.take start ++ xs ++ old.drop (start + xs.length)) } := by
  have stop : r.offset o.content.extent = r.offset 0 + (11 + old.length) := by
    rw [content]
    rfl
  have first : payloadOffset r start = r.offset 0 + (11 + start) := rfl
  have at11 : r.offset 11 = r.offset 0 + 11 := rfl
  have total : (old.take start ++ xs ++ old.drop (start + xs.length)).length = old.length := by
    simp only [List.length_append, List.length_take, List.length_drop]
    omega
  refine ⟨?header, ?fields, ?payload⟩
  case header =>
    obtain ⟨size, c, read, length, cls⟩ := h.header
    refine ⟨size, c, ?_, ?_, cls⟩
    · rw [Object.setPayload, h.header_overwrite fits (by omega) (by omega), read, content]
      rfl
    · rw [length, content]
      exact total.symm
  case fields =>
    intro i v field
    cases field
  case payload =>
    intro ys eq i hi
    cases eq
    rw [total] at hi
    have at_ : payloadOffset r i = r.offset 0 + (11 + i) := rfl
    rw [Object.setPayload, Bytes.getElem?_overwrite _ _ _ _ (by omega)]
    by_cases inside : payloadOffset r start ≤ payloadOffset r i ∧
        payloadOffset r i < payloadOffset r start + xs.length
    · rw [if_pos inside, List.append_assoc, List.getElem?_append_right (by simp; omega),
        List.getElem?_append_left (by simp; omega)]
      congr 1
      simp only [List.length_take]
      omega
    · rw [if_neg inside, h.payload old content i hi]
      by_cases before : i < start
      · rw [List.append_assoc, List.getElem?_append_left (by simp; omega),
          List.getElem?_take_of_lt before]
      · rw [List.getElem?_append_right (by simp; omega), List.getElem?_drop]
        congr 1
        simp only [List.length_append, List.length_take]
        omega

theorem setClass {v : Value} {c : Ref} (value : η.word? v = some c.word) :
    ShowsObject (Object.setClass b r c) η r { o with cls := v } := by
  have stop : r.offset o.content.extent = r.offset 0 + o.content.extent := rfl
  have long := o.content.header_le_extent
  have at_ : ∀ n, r.offset n = r.offset 0 + n := fun _ => rfl
  have at7 := at_ 7
  have four := Word.length_bytes c.word
  have fits7 : r.offset Header.classOffset + c.word.bytes.length ≤ b.size := by
    simp only [Header.classOffset]
    omega
  have untouched : ∀ k n, k + n ≤ 7 ∨ 11 ≤ k →
      Bytes.Same (Object.setClass b r c) (r.offset k) b (r.offset k) n := by
    intro k n where_
    have atk := at_ k
    refine Bytes.same_overwrite _ _ _ _ _ fits7 ?_
    simp only [Header.classOffset]
    omega
  refine ⟨?header, ?fields, ?payload⟩
  case header =>
    obtain ⟨size, c', read, length, cls⟩ := h.header
    refine ⟨size, c, ?_, length, value⟩
    obtain ⟨nonnull, marker, kind, state, size_word, -⟩ := (Header.read?_eq_some_iff _ _ _).1 read
    refine (Header.read?_eq_some_iff _ _ _).2 ⟨nonnull, ?_, ?_, ?_, ?_, ?_⟩
    · exact (untouched 0 1 (by omega) 0 (by omega)).trans marker
    · exact (untouched 1 1 (by omega) 0 (by omega)).trans kind
    · exact (untouched 2 1 (by omega) 0 (by omega)).trans state
    · exact ((untouched 3 4 (by omega)).word? 0 (by omega)).trans size_word
    · exact Bytes.word?_overwrite_self _ _ _ fits7
  case fields =>
    intro i v' field
    obtain ⟨w, value', word⟩ := h.fields i v' field
    exact ⟨w, value', ((untouched (11 + i * 4) 4 (by omega)).word? 0 (by omega)).trans word⟩
  case payload =>
    intro xs content i hi
    exact (untouched (11 + i) 1 (by omega) 0 (by omega)).trans (h.payload xs content i hi)

end Writes

end ShowsObject

/-! ### The heap -/

namespace SemiSpaces.Shows

variable {s : SemiSpaces} {η : Placement} {store : Nat → Entity} {next : Nat}
variable (shows_ : s.Shows η store next)
include shows_

theorem fits {id : Nat} {r : Ref} (placed : η id = some r) :
    r.offset (store id).content.extent ≤ s.bytes.size :=
  (shows_.high id r placed).trans (shows_.sound.top_le_end.trans shows_.sound.end_le_size)

/-- A change inside one object changes that object. -/
theorem update {id : Nat} {r : Ref} (placed : η id = some r) {f : Bytes → Bytes} {o : Entity}
    (size : (f s.bytes).size = s.bytes.size)
    (elsewhere : ∀ p n, p + n ≤ r.offset 0 ∨ r.offset (store id).content.extent ≤ p →
      Bytes.Same (f s.bytes) p s.bytes p n)
    (extent : o.content.extent = (store id).content.extent)
    (object : ShowsObject (f s.bytes) η r o) :
    (s.mapBytes f).Shows η (Function.update store id o) next := by
  have extents : ∀ id', (Function.update store id o id').content.extent =
      (store id').content.extent := by
    intro id'
    by_cases same : id' = id
    · subst same
      rw [Function.update_self, extent]
    · rw [Function.update_of_ne same]
  refine
    { sound := shows_.sound.mapBytes size
      named := shows_.named
      low := shows_.low
      high := ?high
      object := ?object
      apart := ?apart
      compact := ?compact }
  case compact =>
    rw [volume_congr fun id' _ => extents id']
    exact shows_.compact
  case high =>
    intro id' r' placed'
    rw [extents]
    exact shows_.high id' r' placed'
  case object =>
    intro id' r' placed'
    by_cases same : id' = id
    · subst same
      rw [placed] at placed'
      cases placed'
      rw [Function.update_self]
      exact object
    · rw [Function.update_of_ne same]
      refine (shows_.object id' r' placed').congr (elsewhere _ _ ?_)
      exact shows_.apart id' id r' r placed' placed same
  case apart =>
    intro id₁ id₂ r₁ r₂ placed₁ placed₂ ne
    rw [extents, extents]
    exact shows_.apart id₁ id₂ r₁ r₂ placed₁ placed₂ ne

/-- The case of a write. -/
theorem overwrite {id : Nat} {r : Ref} (placed : η id = some r) {p : Nat} {xs : List UInt8}
    {o : Entity} (low : r.offset 0 ≤ p) (high : p + xs.length ≤ r.offset (store id).content.extent)
    (extent : o.content.extent = (store id).content.extent)
    (object : ShowsObject (s.bytes.overwrite p xs) η r o) :
    (s.mapBytes (·.overwrite p xs)).Shows η (Function.update store id o) next := by
  have fits := shows_.fits placed
  refine shows_.update placed (Bytes.size_overwrite _ _ _) ?_ extent object
  intro q n apart
  exact Bytes.same_overwrite _ _ _ _ _ (by omega) (by omega)

theorem setField {id : Nat} {r : Ref} (placed : η id = some r) {values : List Value}
    (content : (store id).content = .fields values) {i : Nat} (hi : i < values.length) {v : Value}
    {w : Word} (value : η.word? v = some w) :
    (s.mapBytes (Object.setField · r i w)).Shows η (Function.update store id
      { store id with content := .fields (values.set i v) }) next := by
  have stop : r.offset (store id).content.extent = r.offset 0 + (11 + values.length * 4) := by
    rw [content]
    rfl
  have start : fieldOffset r i = r.offset 0 + (11 + i * 4) := rfl
  have four := Word.length_bytes w
  refine shows_.overwrite placed (by omega) (by omega) ?_
    ((shows_.object id r placed).setField (shows_.fits placed) content hi value)
  rw [content]
  simp only [Content.extent, List.length_set]

theorem setPayload {id : Nat} {r : Ref} (placed : η id = some r) {old : List UInt8}
    (content : (store id).content = .bytes old) {start : Nat} {xs : List UInt8}
    (high : start + xs.length ≤ old.length) :
    (s.mapBytes (Object.setPayload · r start xs)).Shows η (Function.update store id
      { store id with content := .bytes (old.take start ++ xs ++ old.drop (start + xs.length)) })
      next := by
  have stop : r.offset (store id).content.extent = r.offset 0 + (11 + old.length) := by
    rw [content]
    rfl
  have first : payloadOffset r start = r.offset 0 + (11 + start) := rfl
  refine shows_.overwrite placed (by omega) (by omega) ?_
    ((shows_.object id r placed).setPayload (shows_.fits placed) content high)
  rw [content]
  simp only [Content.extent, List.length_append, List.length_take, List.length_drop]
  omega

theorem setClass {id : Nat} {r : Ref} (placed : η id = some r) {v : Value} {c : Ref}
    (value : η.word? v = some c.word) :
    (s.mapBytes (Object.setClass · r c)).Shows η (Function.update store id
      { store id with cls := v }) next := by
  have stop : r.offset (store id).content.extent = r.offset 0 + (store id).content.extent := rfl
  have long := (store id).content.header_le_extent
  have first : r.offset Header.classOffset = r.offset 0 + 7 := rfl
  have four := Word.length_bytes c.word
  exact shows_.overwrite placed (by omega) (by omega) rfl
    ((shows_.object id r placed).setClass (shows_.fits placed) value)

omit shows_ in
/-- One field of an object that is being filled. -/
theorem setField_update {id : Nat} {r : Ref} {cls : Value} {values : List Value}
    (shows_ : s.Shows η (Function.update store id ⟨cls, .fields values⟩) next)
    (placed : η id = some r) {i : Nat} (hi : i < values.length) {v : Value} {w : Word}
    (value : η.word? v = some w) :
    (s.mapBytes (Object.setField · r i w)).Shows η
      (Function.update store id ⟨cls, .fields (values.set i v)⟩) next := by
  have self : Function.update store id (⟨cls, .fields values⟩ : Entity) id = ⟨cls, .fields values⟩ :=
    Function.update_self id _ store
  have after := shows_.setField placed (congrArg Entity.content self) hi value
  rwa [self, Function.update_idem] at after

theorem unnamed : η next = none := by
  cases found : η next with
  | none => rfl
  | some r => exact absurd (shows_.named next r found) (Nat.lt_irrefl _)

/-- An object that is added above all others. -/
theorem extend {b : Bytes} {o : Entity} (size : b.size = s.bytes.size)
    (below : ∀ p n, p + n ≤ s.top → Bytes.Same b p s.bytes p n)
    (room : s.top + o.content.extent ≤ s.activeEnd)
    (object : ShowsObject b (Function.update η next (some (Ref.ofOffset s.top)))
      (Ref.ofOffset s.top) o) :
    ({ s with bytes := b, top := s.top + o.content.extent } : SemiSpaces).Shows
      (Function.update η next (some (Ref.ofOffset s.top))) (Function.update store next o)
      (next + 1) := by
  have more := Placement.extends_update shows_.unnamed (Ref.ofOffset s.top)
  have addressable : s.top < wordLimit := by
    have := shows_.sound.end_le_size
    have := shows_.sound.addressable
    have := o.content.header_le_extent
    omega
  have place : ∀ n, (Ref.ofOffset s.top).offset n = s.top + n := Ref.offset_ofOffset addressable
  -- an object is the new one, or it was there before
  have cases_ : ∀ id r, Function.update η next (some (Ref.ofOffset s.top)) id = some r →
      (id = next ∧ r = Ref.ofOffset s.top) ∨ (id ≠ next ∧ η id = some r) := by
    intro id r placed
    by_cases same : id = next
    · subst same
      rw [Function.update_self] at placed
      exact Or.inl ⟨rfl, (Option.some.inj placed).symm⟩
    · rw [Function.update_of_ne same] at placed
      exact Or.inr ⟨same, placed⟩
  have low_top := shows_.sound.start_le_top
  refine
    { sound := ⟨size.trans shows_.sound.size_eq, ?_, room, size ▸ shows_.sound.addressable⟩
      named := ?named
      low := ?low
      high := ?high
      object := ?object
      apart := ?apart
      compact := ?compact }
  · exact low_top.trans (Nat.le_add_right _ _)
  case compact =>
    have before := shows_.compact
    have same : volume (Function.update store next o) next = volume store next :=
      volume_congr fun id named => by rw [Function.update_of_ne (Nat.ne_of_lt named)]
    rw [volume_succ, same, Function.update_self]
    unfold SemiSpaces.used at before ⊢
    change s.top + o.content.extent - s.activeStart ≤ _
    omega
  case named =>
    intro id r placed
    rcases cases_ id r placed with ⟨rfl, -⟩ | ⟨-, placed⟩
    · exact Nat.lt_succ_self _
    · exact Nat.lt_succ_of_lt (shows_.named id r placed)
  case low =>
    intro id r placed
    rcases cases_ id r placed with ⟨rfl, rfl⟩ | ⟨-, placed⟩
    · rw [place]
      exact low_top
    · exact shows_.low id r placed
  case high =>
    intro id r placed
    rcases cases_ id r placed with ⟨rfl, rfl⟩ | ⟨ne, placed⟩
    · rw [place, Function.update_self]
    · rw [Function.update_of_ne ne]
      exact (shows_.high id r placed).trans (Nat.le_add_right _ _)
  case object =>
    intro id r placed
    rcases cases_ id r placed with ⟨rfl, rfl⟩ | ⟨ne, placed⟩
    · rw [Function.update_self]
      exact object
    · rw [Function.update_of_ne ne]
      exact ((shows_.object id r placed).congr (below _ _ (shows_.high id r placed))).mono more
  case apart =>
    intro id id' r r' here here' ne
    rcases cases_ id r here with ⟨rfl, rfl⟩ | ⟨old, placed⟩
    · rcases cases_ id' r' here' with ⟨rfl, rfl⟩ | ⟨old', placed'⟩
      · exact absurd rfl ne
      · rw [Function.update_of_ne old', place 0]
        exact Or.inr (shows_.high id' r' placed')
    · rcases cases_ id' r' here' with ⟨rfl, rfl⟩ | ⟨old', placed'⟩
      · rw [Function.update_of_ne old, place 0]
        exact Or.inl (shows_.high id r placed)
      · rw [Function.update_of_ne old, Function.update_of_ne old']
        exact shows_.apart id id' r r' placed placed' ne

end SemiSpaces.Shows

/-! ### New objects -/

/-- What a new object holds: nulls or zeros. -/
def Content.blank (kind : ObjectKind) (size : Word) : Content :=
  match kind with
  | .pointers => .fields (List.replicate size.toNat (.raw Ref.null.word))
  | .bytes => .bytes (List.replicate size.toNat 0)

namespace Content

@[simp] theorem kind_blank (kind : ObjectKind) (size : Word) : (blank kind size).kind = kind := by
  cases kind <;> rfl

@[simp] theorem length_blank (kind : ObjectKind) (size : Word) :
    (blank kind size).length = size.toNat := by
  cases kind <;> simp [blank, length]

theorem extent_blank (kind : ObjectKind) (size : Word) :
    (blank kind size).extent = kind.objectBytes size := by
  cases kind <;> simp [blank, extent, ObjectKind.objectBytes, ObjectKind.payloadBytes]

end Content

/-- The buffer after an object has been laid out at an offset. -/
def layOut (b : Bytes) (p : Nat) (kind : ObjectKind) (size : Word) (c : Ref) : Bytes :=
  let b := (b.wipe p (kind.objectBytes size)).overwrite p (Header.encode ⟨kind, size, .normal c⟩)
  match kind with
  | .pointers => b.overwrite (p + 11) (List.replicate (kind.payloadBytes size) 0xFF)
  | .bytes => b

section LayOut

variable {b : Bytes} {p : Nat} {kind : ObjectKind} {size : Word} {c : Ref}

theorem size_layOut : (layOut b p kind size c).size = b.size := by
  cases kind <;> simp [layOut]

theorem same_layOut (fits : p + kind.objectBytes size ≤ b.size) (q n : Nat) (below : q + n ≤ p) :
    Bytes.Same (layOut b p kind size c) q b q n := by
  have wiped : Bytes.Same ((b.wipe p (kind.objectBytes size)).overwrite p
      (Header.encode ⟨kind, size, .normal c⟩)) q b q n := by
    refine (Bytes.same_overwrite _ _ _ _ _ ?_ (Or.inl below)).trans
      (Bytes.same_wipe _ _ _ _ _ fits (Or.inl below))
    rw [Bytes.size_wipe, Header.length_encode]
    simp only [ObjectKind.objectBytes] at fits
    omega
  cases kind with
  | bytes => exact wiped
  | pointers =>
    refine (Bytes.same_overwrite _ _ _ _ _ ?_ (Or.inl (by omega))).trans wiped
    rw [Bytes.size_overwrite, Bytes.size_wipe, List.length_replicate]
    simp only [ObjectKind.objectBytes] at fits
    omega

/-- A new object shows what new objects hold. -/
theorem showsObject_layOut (fits : p + kind.objectBytes size ≤ b.size) (addressable : b.size < wordLimit)
    {η : Placement} {cls : Value} (value : η.word? cls = some c.word) :
    ShowsObject (layOut b p kind size c) η (Ref.ofOffset p) ⟨cls, .blank kind size⟩ := by
  have long : 11 ≤ kind.objectBytes size := Nat.le_add_right _ _
  have place : ∀ n, (Ref.ofOffset p).offset n = p + n := Ref.offset_ofOffset (by omega)
  have nonnull : Ref.ofOffset p ≠ Ref.null := Ref.ofOffset_ne_null (by omega)
  have start : p = (Ref.ofOffset p).offset 0 := (place 0).symm
  have encoded : Header.read? ((b.wipe p (kind.objectBytes size)).overwrite p
      (Header.encode ⟨kind, size, .normal c⟩)) (Ref.ofOffset p) = some ⟨kind, size, .normal c⟩ := by
    have read := Header.read?_overwrite_encode (b.wipe p (kind.objectBytes size)) (Ref.ofOffset p)
      ⟨kind, size, .normal c⟩ nonnull (by rw [place, Bytes.size_wipe]; omega)
    rwa [place] at read
  cases kind with
  | bytes =>
    refine ⟨⟨size, c, encoded, by simp, value⟩, ?_, ?_⟩
    · intro i v field
      cases field
    · intro xs eq i hi
      cases eq
      rw [List.length_replicate] at hi
      have inside : p + (11 + i) < p + ObjectKind.objectBytes .bytes size := by
        simp only [ObjectKind.objectBytes, ObjectKind.payloadBytes]
        omega
      rw [payloadOffset, place, List.getElem?_replicate, if_pos hi]
      refine (Bytes.same_overwrite _ _ _ (p + (11 + i)) 1 ?_ (Or.inr ?_) 0 (by omega)).trans
        (Bytes.getElem?_wipe _ _ _ _ fits (by omega) inside)
      · rw [Bytes.size_wipe, Header.length_encode]
        omega
      · rw [Header.length_encode]
        omega
  | pointers =>
    have room : p + 11 + (List.replicate (ObjectKind.pointers.payloadBytes size) (0xFF : UInt8)).length ≤
        ((b.wipe p (ObjectKind.pointers.objectBytes size)).overwrite p
          (Header.encode ⟨.pointers, size, .normal c⟩)).size := by
      rw [Bytes.size_overwrite, Bytes.size_wipe, List.length_replicate]
      simp only [ObjectKind.objectBytes] at fits
      omega
    refine ⟨⟨size, c, ?_, by simp, value⟩, ?_, ?_⟩
    · refine Eq.trans ?_ encoded
      refine Header.read?_congr (n := 11) ?_ (Nat.le_refl _) nonnull nonnull
      rw [place]
      exact Bytes.same_overwrite _ _ _ _ _ room (Or.inl (by omega))
    · intro i v field
      simp only [Content.blank, Content.values, List.getElem?_replicate] at field
      split at field
      · rename_i hi
        cases field
        refine ⟨_, rfl, ?_⟩
        have byte : ∀ j < size.toNat * 4,
            (layOut b p .pointers size c)[p + 11 + j]? = some 0xFF := by
          intro j hj
          refine (Bytes.getElem?_overwrite_self _ _ _ j room ?_).trans ?_
          · rw [List.length_replicate]
            exact hj
          · rw [List.getElem?_replicate]
            exact if_pos hj
        rw [fieldOffset, place, ← Nat.add_assoc, Bytes.word?_eq, byte _ (by omega),
          Nat.add_assoc (p + 11), byte _ (by omega), Nat.add_assoc (p + 11), byte _ (by omega),
          Nat.add_assoc (p + 11), byte _ (by omega)]
        rfl
      · cases field
    · intro xs eq
      cases eq

end LayOut

end ObjectMachine
