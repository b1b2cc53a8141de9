import Mathlib.Data.List.Perm.Basic
import NativeRecord.Proofs.Transfer.ForeignViews
import NativeRecord.Proofs.Transfer.RoundTrip

/-!
# Elements of arrays

An element of an array is read and written on its own at its distance from the first one.  To the
array as a whole, writing an element is a point update, whatever the elements are made of.

Elements of an array lie apart, whatever they are made of, and an access to one of them is confined
to its bytes.  So what one write does cannot be seen in another element, and writes to different
elements commute.  Writing the whole array is writing the elements one after the other from the
first one on; any other order is reached from this one by swapping neighbours, which is how a
permutation is taken apart by induction.

## What is here

* `Writing.forM_perm` — steps that are confined to different bits can be made in any order.
* `InBytes.eq_of_item` — the bytes of different elements are different.
* `Layout.set_eq_forM` — an array is written by writing its elements.
* `Layout.UpdatesElements`, `Layout.updatesElements` — how the accesses to the elements of an array
  go together with those to the whole of it.
-/

set_option autoImplicit false
namespace NativeRecord

open Writing

/-! ## Steps in any order

Swapping two steps keeps their answers, so that a row which succeeds in one order does so in the
other.  For a row that fails this does not hold, since the steps behind the failure are not made.
-/

/-- **Steps that are confined to different bits can be made in any order,** if they succeed in
one. -/
theorem Writing.forM_perm {α : Type} {f : α → Writing Unit} {S : α → Nat → Prop} {xs ys : List α}
    (hperm : xs.Perm ys) {v after : View} (hconfined : ∀ x ∈ xs, (f x).Confined v (S x))
    (hapart : xs.Pairwise fun x y => ∀ p, ¬ (S x p ∧ S y p))
    (h : (xs.forM f).run v = (.ok (), after)) : (ys.forM f).run v = (.ok (), after) := by
  induction hperm generalizing v with
  | nil => exact h
  | @cons x xs ys _ ih =>
    obtain ⟨hx, hxs⟩ := List.forall_mem_cons.1 hconfined
    obtain ⟨_, w, hrun, hrest⟩ := run_bind_eq_ok.1 h
    have halike := hx.alike_of_run hrun
    refine run_bind_eq_ok.2 ⟨(), w, hrun, ?_⟩
    exact ih (fun y hy => (hxs y hy).of_alike halike) (List.pairwise_cons.1 hapart).2 hrest
  | swap x y xs =>
    obtain ⟨hy, hx, -⟩ : (f y).Confined v (S y) ∧ (f x).Confined v (S x) ∧ _ := by
      simpa only [List.forall_mem_cons] using hconfined
    have hyx := (List.pairwise_cons.1 hapart).1 x List.mem_cons_self
    obtain ⟨_, u, hyrun, h⟩ := run_bind_eq_ok.1 h
    obtain ⟨_, w, hxrun, hrest⟩ := run_bind_eq_ok.1 h
    obtain ⟨hanswer, hview⟩ := hy.comm hx fun p hp hp' => hyx p ⟨hp, hp'⟩
    obtain ⟨hanswer', -⟩ := hx.comm hy fun p hp hp' => hyx p ⟨hp', hp⟩
    rw [hyrun] at hanswer hanswer' hview
    rw [hxrun] at hanswer hview
    have hfirst : (f x).run v = (.ok (), ((f x).run v).2) := Prod.ext hanswer.symm rfl
    refine run_bind_eq_ok.2 ⟨(), _, hfirst, ?_⟩
    exact run_bind_eq_ok.2 ⟨(), w, Prod.ext hanswer' hview.symm, hrest⟩
  | trans hfirst _ ih ih' =>
    refine ih' (fun x hx => hconfined x (hfirst.mem_iff.2 hx)) ?_ (ih hconfined hapart h)
    exact hfirst.pairwise hapart fun hxy p hp => hxy p hp.symm

/-- Items are written one after the other, each at its distance from the first one. -/
theorem writeItems_eq_forM {write step : Nat → Value → Writing Unit} {stride offset k : Nat}
    {items : List Value}
    (h : ∀ e x, e < items.length → step (k + e) x = write (offset + e * stride) x) :
    writeItems write stride offset items = (items.zipIdx k).forM fun w => step w.2 w.1 := by
  induction items generalizing offset k with
  | nil => rfl
  | cons x items ih =>
    have hfirst : step k x = write offset x := by simpa using h 0 x (Nat.succ_pos _)
    have hrest : writeItems write stride (offset + stride) items =
        (items.zipIdx (k + 1)).forM fun w => step w.2 w.1 := by
      refine ih fun e y he => ?_
      have hnext := h (e + 1) y (Nat.succ_lt_succ he)
      rwa [item_offset_succ, ← Nat.add_assoc, Nat.add_right_comm] at hnext
    rw [writeItems, List.zipIdx_cons, hrest, ← hfirst]
    rfl

/-- **The bytes of an element are not those of another one.** -/
theorem InBytes.eq_of_item {offset size i j p : Nat} (hi : InBytes (offset + i * size) size p)
    (hj : InBytes (offset + j * size) size p) : i = j := by
  have hapart : ∀ i j : Nat, i < j → offset + i * size + size ≤ offset + j * size := by
    intro i j hij
    rw [Nat.add_assoc, ← Nat.succ_mul]
    exact Nat.add_le_add_left (Nat.mul_le_mul_right size hij) offset
  rw [InBytes] at hi hj
  rcases Nat.lt_trichotomy i j with hij | hij | hij
  · have := hapart i j hij
    omega
  · exact hij
  · have := hapart j i hij
    omega

/-! ## The elements of a member

A member that is an array has no bit range, so it is read and written as its shape is, at its
offset. -/

theorem MemberLayout.read_of_array {m : MemberLayout} {element : Shape} {length : Nat}
    (hshape : m.shape = .array element length) (view : View) (limit start : Nat) :
    m.read view limit start =
      Slot.read view limit ⟨.array element length, none⟩ (start + m.offset) := by
  cases m
  cases hshape
  rfl

theorem MemberLayout.write_of_array {m : MemberLayout} {element : Shape} {length : Nat}
    (hshape : m.shape = .array element length) (limit start : Nat) (x : Value) :
    m.write limit start x =
      Shape.write m.name limit (.array element length) (start + m.offset) x := by
  cases m
  cases hshape
  rfl

namespace Layout

/-- How accesses to the elements of an array go together with accesses to the whole of it: the
member at an index, which is the array. -/
structure UpdatesElements (l : Layout) (i : Nat) (m : MemberLayout) (element : Shape)
    (length : Nat) (v : View) : Prop where
  /-- The array is read with the values that its elements are read with. -/
  get : ∃ items, l.get v i = .ok (.array items) ∧ items.length = length ∧
    ∀ e < length, ∃ y, items[e]? = some y ∧ l.getElement v i e = .ok y
  /-- Once an element is written, the array is as before but for this element. -/
  setElement : ∀ e < length, ∀ x after, (l.setElement i e x).run v = (.ok (), after) →
    ∃ items y, l.get v i = .ok (.array items) ∧ l.getElement after i e = .ok y ∧
      l.get after i = .ok (.array (items.set e y))
  /-- Success or not, no byte changes but those of the element. -/
  within : ∀ e < length, ∀ x b, v.DiffersAt ((l.setElement i e x).run v).2 b →
    m.offset + e * element.size ≤ b ∧ b < m.offset + (e + 1) * element.size
  /-- If an array can be written, writing its elements in any order leaves the same bytes. -/
  set : ∀ xs after, (l.set i (.array xs)).run v = (.ok (), after) →
    ∀ writes : List (Value × Nat), writes.Perm xs.zipIdx →
      (writes.forM fun w => l.setElement i w.2 w.1).run v = (.ok (), after)

section Element

variable {l : Layout} {i e : Nat} {m : MemberLayout} {element : Shape} {length : Nat}

theorem get_of_array (hm : l.members[i]? = some m) (hshape : m.shape = .array element length)
    (v : View) : l.get v i = Slot.read v l.size ⟨.array element length, none⟩ m.offset := by
  rw [get, memberAt_eq_ok_iff.2 hm, ← Nat.zero_add m.offset, ← MemberLayout.read_of_array hshape]
  rfl

theorem getElement_eq (hm : l.members[i]? = some m) (hshape : m.shape = .array element length)
    (he : e < length) (v : View) :
    l.getElement v i e = element.read v l.size (m.offset + e * element.size) := by
  rw [getElement, elementAt_eq_ok_iff.2 ⟨hm, rfl, length, hshape, he⟩]
  rfl

theorem setElement_eq (hm : l.members[i]? = some m) (hshape : m.shape = .array element length)
    (he : e < length) (x : Value) :
    l.setElement i e x = element.write m.name l.size (m.offset + e * element.size) x := by
  rw [setElement, elementAt_eq_ok_iff.2 ⟨hm, rfl, length, hshape, he⟩]
  rfl

/-- **An array is written by writing its elements.** -/
theorem set_eq_forM (hm : l.members[i]? = some m) (hshape : m.shape = .array element length)
    {xs : List Value} (hlength : xs.length = length) :
    l.set i (.array xs) = xs.zipIdx.forM fun w => l.setElement i w.2 w.1 := by
  have hitems : l.set i (.array xs) = writeItems
      (fun offset x => element.write m.name l.size offset x) element.size m.offset xs := by
    rw [set, memberAt_eq_ok_iff.2 hm]
    show m.write l.size 0 (.array xs) = _
    rw [MemberLayout.write_of_array hshape, Shape.write, if_pos hlength, Nat.zero_add]
  rw [hitems]
  refine writeItems_eq_forM fun e x he => ?_
  rw [Nat.zero_add, setElement_eq hm hshape (hlength ▸ he)]

/-- An array takes as many items as it has elements. -/
theorem length_of_set (hm : l.members[i]? = some m) (hshape : m.shape = .array element length)
    {xs : List Value} {v after : View} (h : (l.set i (.array xs)).run v = (.ok (), after)) :
    xs.length = length := by
  rw [set, memberAt_eq_ok_iff.2 hm] at h
  change (m.write l.size 0 (.array xs)).run v = _ at h
  rw [MemberLayout.write_of_array hshape, Shape.write] at h
  split at h
  · assumption
  · cases h

variable {platform : Platform} {v : View}

theorem setElement_confined (hpointers : v.pointerWidth = platform.pointerWidth)
    (hs : l.Sound platform) (hm : l.members[i]? = some m)
    (hshape : m.shape = .array element length) (he : e < length) (x : Value) :
    (l.setElement i e x).Confined v (InBytes (m.offset + e * element.size) element.size) := by
  have hfound := elementAt_eq_ok_iff.2 ⟨hm, rfl, length, hshape, he⟩
  rw [setElement_eq hm hshape he]
  exact Shape.write_confined hpointers (elementAt_within hs hfound).1 _ _ _ x

/-- **The array is read with the values that its elements are read with.** -/
theorem exists_get_array (h : v.Readable platform) (hs : l.Sound platform) (hsize : l.size ≤ v.size)
    (hm : l.members[i]? = some m) (hshape : m.shape = .array element length) :
    ∃ items, l.get v i = .ok (.array items) ∧ items.length = length ∧
      ∀ e < length, ∃ y, items[e]? = some y ∧ l.getElement v i e = .ok y := by
  obtain ⟨y, hy⟩ := exists_get h hs hsize (List.getElem?_eq_some_iff.1 hm).1
  have hread := hy
  rw [get_of_array hm hshape] at hread
  obtain ⟨items, rfl, hlength, hitems⟩ := Slot.read_array_eq_ok hread
  refine ⟨items, hy, hlength, fun e he => ?_⟩
  obtain ⟨y, hy, hread⟩ := hitems e he
  exact ⟨y, hy, by rwa [getElement_eq hm hshape he, ← Slot.read_plain]⟩

/-- **Writing an element does not change what is read for the others.** -/
theorem getElement_setElement_ne (h : v.Readable platform) (hs : l.Sound platform)
    (hm : l.members[i]? = some m) (hshape : m.shape = .array element length) (he : e < length)
    {j : Nat} (hj : j < length) (hne : j ≠ e) (x : Value) :
    l.getElement ((l.setElement i e x).run v).2 i j = l.getElement v i j := by
  have hsound := (elementAt_within hs (elementAt_eq_ok_iff.2 ⟨hm, rfl, length, hshape, he⟩)).1
  have hconfined := setElement_confined h.pointers hs hm hshape he x
  rw [getElement_eq hm hshape hj, getElement_eq hm hshape hj]
  refine Shape.read_of_confined h hsound hconfined rfl ?_
  exact fun p hp hp' => hne (hp.eq_of_item hp')

/-- **Once an element is written, the array is as before but for this element.** -/
theorem get_setElement (h : v.Readable platform) (hs : l.Sound platform) (hsize : l.size ≤ v.size)
    (hm : l.members[i]? = some m) (hshape : m.shape = .array element length) (he : e < length)
    {x : Value} {after : View} (hrun : (l.setElement i e x).run v = (.ok (), after)) :
    ∃ items y, l.get v i = .ok (.array items) ∧ l.getElement after i e = .ok y ∧
      l.get after i = .ok (.array (items.set e y)) := by
  have halike := (setElement_confined h.pointers hs hm hshape he x).alike_of_run hrun
  obtain ⟨items, hget, hlength, hitems⟩ := exists_get_array h hs hsize hm hshape
  obtain ⟨items', hget', hlength', hitems'⟩ :=
    exists_get_array (h.of_alike halike) hs (halike.size_eq ▸ hsize) hm hshape
  obtain ⟨y, hy, hgety⟩ := hitems' e he
  suffices hset : items' = items.set e y from ⟨items, y, hget, hgety, hset ▸ hget'⟩
  refine List.ext_getElem? fun j => ?_
  rw [List.getElem?_set]
  split
  · rename_i hej
    rw [← hej, if_pos (hlength ▸ he), hy]
  · rename_i hne
    rcases Nat.lt_or_ge j length with hj | hj
    · obtain ⟨z, hz, hgetz⟩ := hitems j hj
      obtain ⟨z', hz', hgetz'⟩ := hitems' j hj
      have hsame := getElement_setElement_ne h hs hm hshape he hj (Ne.symm hne) x
      rw [hrun, hgetz, hgetz'] at hsame
      rw [hz, hz', Except.ok.inj hsame]
    · rw [List.getElem?_eq_none (hlength' ▸ hj), List.getElem?_eq_none (hlength ▸ hj)]

/-- **The elements of an array can be written in any order,** if the array can be written. -/
theorem forM_setElement (hpointers : v.pointerWidth = platform.pointerWidth) (hs : l.Sound platform)
    (hm : l.members[i]? = some m) (hshape : m.shape = .array element length) {xs : List Value}
    {after : View} (hrun : (l.set i (.array xs)).run v = (.ok (), after))
    {writes : List (Value × Nat)} (hperm : writes.Perm xs.zipIdx) :
    (writes.forM fun w => l.setElement i w.2 w.1).run v = (.ok (), after) := by
  have hlength := length_of_set hm hshape hrun
  have hindices : xs.zipIdx.Pairwise fun a b => a.2 ≠ b.2 := by
    refine List.pairwise_map.1 ?_
    rw [List.zipIdx_map_snd]
    exact List.nodup_range'
  rw [set_eq_forM hm hshape hlength] at hrun
  refine forM_perm (S := fun w => InBytes (m.offset + w.2 * element.size) element.size)
    hperm.symm (fun w hw => ?_) (hindices.imp fun hne p hp => hne (hp.1.eq_of_item hp.2)) hrun
  have hlt : w.2 < length := by simpa [hlength] using List.snd_lt_of_mem_zipIdx hw
  exact setElement_confined hpointers hs hm hshape hlt w.1

end Element

/-- **The elements of an array are read and written as parts of it,** on every view with the
platform's pointer width that is long enough and in which no access is made to fail. -/
theorem updatesElements {config : Config} {l : Layout} (hvalid : config.validate = .ok ())
    (hbuilt : Built config l) {v : View} (hview : v.Writable config.platform)
    (hsize : l.size ≤ v.size) {i : Nat} {m : MemberLayout} (hm : l.members[i]? = some m)
    {element : Shape} {length : Nat} (hshape : m.shape = .array element length) :
    l.UpdatesElements i m element length v := by
  have hs := hbuilt.sound (Config.usable_of_validate hvalid)
  refine ⟨exists_get_array hview.toReadable hs hsize hm hshape, ?_, ?_, ?_⟩
  · exact fun e he x after hrun => get_setElement hview.toReadable hs hsize hm hshape he hrun
  · intro e he x b hb
    obtain ⟨p, hp, rfl⟩ :=
      (setElement_confined hview.pointers hs hm hshape he x).of_differsAt hb
    rw [InBytes] at hp
    rw [Nat.succ_mul]
    omega
  · exact fun xs after hrun writes hperm =>
      forM_setElement hview.pointers hs hm hshape hrun hperm

end Layout

/-- The numbers of the two items of a row, the second one first: the gap before each number keeps
its byte. -/
theorem updatesElements_gappedRow :
    let item (n : Word) : Value := .record ⟨[⟨"b", .uint n⟩]⟩
    ∃ m after, gappedRowLayout.members[0]? = some m ∧
      gappedRowLayout.UpdatesElements 0 m (.record gappedLayout) 2 overlaidView ∧
      ([(item 0x5678, 1), (item 0x1234, 0)].forM fun w => gappedRowLayout.setElement 0 w.2 w.1).run
        overlaidView = (.ok (), after) ∧
      after.slice 0 8 = [0, 1, 0x34, 0x12, 0, 1, 0x78, 0x56] := by
  intro item
  have hupdates : gappedRowLayout.UpdatesElements 0 _ _ 2 overlaidView :=
    Layout.updatesElements (show Config.standard.validate = .ok () by decide) built_gappedRow
      writable_overlaid (show 10 ≤ overlaidView.size by decide) rfl rfl
  have hset := hupdates.set [item 0x1234, item 0x5678] _ rfl
  exact ⟨_, _, rfl, hupdates, hset _ (.swap ..), rfl⟩

end NativeRecord
