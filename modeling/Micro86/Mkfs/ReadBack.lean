import Micro86.Mkfs.Append

/-!
# The writer and the reader

Any interleaving of `iappend` calls on any inodes, read back by the kernel's `readi`.
-/

namespace Micro86.Mkfs

open Exec Fs Image

/-! ## Any interleaving of calls -/

def zeroed : Image := ⟨fun _ => ByteBlock.zero, FSSIZE, 1, nmeta⟩

def appends : List (Nat × List UInt8) → MkfsM Unit
  | [] => pure ()
  | (i, p) :: calls => do
    iappend i p
    appends calls

def appendedTo (i : Nat) (calls : List (Nat × List UInt8)) : List UInt8 :=
  (calls.filter fun c => c.1 == i).flatMap Prod.snd

theorem appendedTo_cons (i j : Nat) (p : List UInt8) (calls : List (Nat × List UInt8)) :
    appendedTo j ((i, p) :: calls) = (if j = i then p else []) ++ appendedTo j calls := by
  unfold appendedTo
  by_cases h : j = i
  · subst h
    simp
  · have : (i == j) = false := by simpa using Ne.symm h
    simp [h, this]

theorem zeroed_dinode (i : Nat) : zeroed.dinode i = Inode.zero := by
  unfold Image.dinode zeroed readInode
  ext k <;> simp [Inode.zero]

theorem zeroed_blank : zeroed.Blank where
  sectors := rfl
  lo := Nat.le_refl _
  hi := by decide
  fresh _ _ := rfl
  bitmap _ _ _ := rfl

theorem zeroed_ino (i : Nat) :
    (zeroed.files.ino i).size = 0 ∧ (zeroed.files.ino i).addrs = fun _ => 0 := by
  show (if i < inodeCap then asFile (zeroed.dinode i) else Inode.zero).size = 0 ∧
    (if i < inodeCap then asFile (zeroed.dinode i) else Inode.zero).addrs = _
  rw [zeroed_dinode]
  split <;> exact ⟨rfl, rfl⟩

theorem zeroed_formed : Formed zeroed.files zeroed.freeblock := by
  have haddr : ∀ i k, zeroed.files.addr i k = 0 := by
    intro i k
    unfold Store.addr Store.addrOf Store.entry Inode.indirect
    simp [(zeroed_ino i).2]
  have hsize : ∀ i, (zeroed.files.ino i).size.toNat = 0 := fun i => by rw [(zeroed_ino i).1]; rfl
  refine ⟨⟨fun b => decide_eq_true,
    ⟨by decide, fun x => absurd (haddr _ _), fun x => absurd (haddr _ _),
    fun x y _ => absurd (haddr _ _), fun b hlo _ hu => ?_⟩, fun i _ n hn =>
      ?_⟩, fun i k _ _ => ?_, ?_,
    fun i o _ _ => absurd (haddr _ _)⟩
  · exact absurd (of_decide_eq_true hu) hlo.not_gt
  · rw [hsize] at hn
    exact absurd hn (Nat.not_lt_zero _)
  · rw [haddr, hsize]
    simp
  · simp only [hsize]
    rw [freeblockFor, Finset.sum_eq_zero fun _ _ => (rfl : need 0 = 0)]
    rfl

/-- The state of a run of calls: what is in the files, and that no mode was touched. -/
structure Ran (img : Image) : Prop where
  formed : Formed img.files img.freeblock
  blank : img.Blank
  mode : ∀ i, i < inodeCap → (img.dinode i).mode = 0

theorem AppendTo.ran {img img' : Image} {i : Nat} {p : List UInt8}
    (h : AppendTo img i p img') (hr : Ran img) : Ran img' := by
  refine ⟨h.formed, h.blank, fun j hj => ?_⟩
  by_cases hji : j = i
  · obtain ⟨a, z, he⟩ := h.ino
    rw [hji, he]
    exact hr.mode i (hji ▸ hj)
  · rw [h.dinode j hj hji]
    exact hr.mode j hj

theorem room_of_sum {img : Image} (hf : Formed img.files img.freeblock)
    {i : Nat} (hi : i < inodeCap) {n : Nat} {f : Nat → Nat}
    (hn : n ≤ f i) (hmax : (img.dinode i).size.toNat + f i ≤ MAXFILE * BSIZE)
    (hroom : freeblockFor (fun j => (img.files.contents j).length + f j) ≤ FSSIZE) :
    ¬ NoRoom img (img.dinode i).size.toNat n := by
  have hlen := length_files img hi
  have hmono : need (img.dinode i).size.toNat ≤ need ((img.dinode i).size.toNat + n) :=
    need_mono (Nat.le_add_right _ _)
  have hsum := sum_update (Finset.mem_range.mpr hi) (fun j => (img.files.contents j).length)
      ((img.dinode i).size.toNat + n) need
  have hle :
      ∑ j ∈ Finset.range inodeCap, need (Function.update (fun j => (img.files.contents j).length) i
      ((img.dinode i).size.toNat + n) j) ≤ ∑ j ∈ Finset.range inodeCap,
      need ((img.files.contents j).length + f j) := by
    refine Finset.sum_le_sum fun j _ => need_mono ?_
    refine update_cases j ?_ fun _ => ?_
    · rw [hlen]
      omega
    · exact Nat.le_add_right _ _
  have hcount := hf.count
  simp only [← Store.length_contents] at hcount
  simp only [hlen] at hsum
  rw [freeblockFor] at hcount hroom
  unfold NoRoom
  omega

/-- **A run of calls** appends to every file what its calls append. -/
theorem appends_spec (calls : List (Nat × List UInt8)) {img : Image}
    (hr : Ran img) (hin : ∀ c ∈ calls, c.1 < inodeCap)
    (hmax : ∀ i, i < inodeCap →
      (img.files.contents i).length + (appendedTo i calls).length ≤ MAXFILE * BSIZE)
    (hroom : freeblockFor
      (fun i => (img.files.contents i).length + (appendedTo i calls).length) ≤ FSSIZE) :
    ∃ img', appends calls img = .ok ((), img') ∧ Ran img' ∧
      ∀ i, i < inodeCap → img'.files.contents i = img.files.contents i ++ appendedTo i calls := by
  induction calls generalizing img with
  | nil => exact ⟨img, rfl, hr, fun _ _ => (List.append_nil _).symm⟩
  | cons call calls ih =>
    obtain ⟨i, p⟩ := call
    have hi : i < inodeCap := hin _ List.mem_cons_self
    have hp : p.length ≤ (appendedTo i ((i, p) :: calls)).length := by
      rw [appendedTo_cons, if_pos rfl, List.length_append]
      exact Nat.le_add_right _ _
    have hno := room_of_sum hr.formed hi hp (by rw [← length_files img hi]; exact hmax i hi) hroom
    obtain ⟨_, img', hok, happ⟩ := (iappend_spec hi hr.formed hr.blank p).returns fun _ => hno
    -- what was appended so far and what is still to come add up to the same
    have hkeep : ∀ j, img'.files.contents j ++ appendedTo j calls =
        img.files.contents j ++ appendedTo j ((i, p) :: calls) := by
      intro j
      rw [appendedTo_cons, ← List.append_assoc]
      by_cases hj : j = i
      · subst hj
        rw [happ.self, if_pos rfl]
      · rw [happ.other j hj, if_neg hj, List.append_nil]
    have hlen : ∀ j, (img'.files.contents j).length + (appendedTo j calls).length =
        (img.files.contents j).length + (appendedTo j ((i, p) :: calls)).length := fun j => by
      rw [← List.length_append, hkeep, List.length_append]
    obtain ⟨img'', hok', hr', hcont⟩ := ih (happ.ran hr) (fun c hc => hin c (.tail _ hc))
      (fun j hj => by rw [hlen]; exact hmax j hj) (by simp only [hlen]; exact hroom)
    refine ⟨img'', ?_, hr', fun j hj => by rw [hcont j hj, hkeep]⟩
    unfold appends
    rw [bind_of_ok hok]
    exact hok'

theorem not_isDev_of_mode {ip : Inode} (h : ip.mode = 0) : ¬ ip.isDev := by
  unfold Inode.isDev
  rw [h]
  decide

/-- **The writer and the reader agree**: whatever is appended to the inodes, in any interleaving, as
    long as the files and the volume are large enough, `readi` returns it. -/
theorem appends_read_back (calls : List (Nat × List UInt8)) (hin : ∀ c ∈ calls, c.1 < inodeCap)
    (hmax : ∀ i, i < inodeCap → (appendedTo i calls).length ≤ MAXFILE * BSIZE)
    (hroom : freeblockFor (fun i => (appendedTo i calls).length) ≤ FSSIZE) :
    ∃ img, appends calls zeroed = .ok ((), img) ∧
      img.freeblock = freeblockFor (fun i => (appendedTo i calls).length) ∧
      ∀ (env : Env) (s : State) (ip : Ptr) (i : Nat), i < inodeCap → s.disk = img.disk →
        (s.icache ip).ino = s.dinode sb i → ∀ off n, off < 4294967296 → n < 4294967296 →
        readi env ip off n s =
          if off ≤ (appendedTo i calls).length ∧ off + n < 4294967296 then
            .ok (((min n ((appendedTo i calls).length - off) : Nat),
              slice (appendedTo i calls) off n), s)
          else .ok ((-1, []), s) := by
  have hnil : ∀ i, zeroed.files.contents i = [] := fun i => by
    rw [← List.length_eq_zero_iff, Store.length_contents, (zeroed_ino i).1]
    rfl
  have hran : Ran zeroed := ⟨zeroed_formed, zeroed_blank, fun i _ => by rw [zeroed_dinode]; rfl⟩
  obtain ⟨img, hok, hr, hcont⟩ := appends_spec calls hran hin
    (fun i hi => by rw [hnil, List.length_nil, Nat.zero_add]; exact hmax i hi)
    (by simp only [hnil, List.length_nil, Nat.zero_add]; exact hroom)
  simp only [hnil, List.nil_append] at hcont
  refine ⟨img, hok, ?_, fun env s ip i hi hdisk hino off n hoff hn => ?_⟩
  · rw [hr.formed.count]
    refine freeblockFor_congr fun i hi => ?_
    rw [← Store.length_contents, hcont i hi]
  · have hdin : (s.icache ip).ino = img.dinode i := by
      rw [hino, State.dinode, hdisk]
      rfl
    have hreads := hr.formed.reads hi (not_isDev_of_mode (hr.mode i hi))
    rw [← hdin, ← hdisk, hcont i hi] at hreads
    split
    · rename_i h
      exact hreads.readi_eq h.1 h.2
    · rename_i h
      exact hreads.readi_refused hoff hn h

/-- Two files written in turns. -/
theorem appends_read_back_turns :
    ∃ img, appends [(1, [1, 2]), (2, [3]), (1, [4])] zeroed = .ok ((), img) ∧
      ∀ (env : Env) (s : State) (ip : Ptr), s.disk = img.disk → (s.icache ip).ino = s.dinode sb 1 →
        readi env ip 1 5 s = .ok ((2, [2, 4]), s) := by
  have hto : ∀ i, appendedTo i [(1, [1, 2]), (2, [3]), (1, [4])] =
      if i = 1 then [1, 2, 4] else if i = 2 then [3] else [] := by
    intro i
    simp only [appendedTo_cons]
    by_cases h1 : i = 1
    · subst h1
      rfl
    by_cases h2 : i = 2
    · subst h2
      rfl
    · simp [h1, appendedTo]
  have hone : ∀ i, (appendedTo i [(1, [1, 2]), (2, [3]), (1, [4])]).length ≤ 3 := fun i => by
    rw [hto]
    split
    · decide
    · split <;> decide
  have hroom :
      freeblockFor (fun i => (appendedTo i [(1, [1, 2]), (2, [3]), (1, [4])]).length) ≤ FSSIZE :=
    (freeblockFor_le fun i => (need_mono (hone i)).trans (by decide : need 3 ≤ 1)).trans (by decide)
  obtain ⟨img, hok, _, hread⟩ := appends_read_back [(1, [1, 2]), (2, [3]), (1, [4])] (by decide)
    (fun i _ => (hone i).trans (by decide)) hroom
  refine ⟨img, hok, fun env s ip hdisk hino => ?_⟩
  rw [hread env s ip 1 (by decide) hdisk hino 1 5 (by decide) (by decide), hto]
  rfl

end Micro86.Mkfs
