import Micro86.Lib.Counting
import Micro86.Tree.Model

/-!
# Well-formed trees and link counts

* `links` — the number of live entries, other than `.`, that name an inode.
* `Shaped` — every directory starts with `.` and `..`, its entries name allocated inodes, and a
  directory other than the root is entered exactly once, in its parent.
* One lemma for each edit of the tree: a file freed, an entry added or erased, a new file or
  directory, a directory removed.
-/

namespace Micro86.Tree

open Fs (S_IFMT S_IFDIR namecmp strncmp strncpy DOT DOTDOT asShort)
open Function

variable {name : List UInt8} {e a b : Dent} {n : Node} {r : List Dent} {v : UInt16}

/-! ## Names as C strings -/

/-- The string in the first `n` bytes. -/
def cstr : Nat → List UInt8 → List UInt8
  | 0, _ => []
  | n + 1, p => if p.headD 0 = 0 then [] else p.headD 0 :: cstr n p.tail

theorem strncmp_eq_zero : ∀ (n : Nat) (p q : List UInt8), strncmp n p q = 0 ↔ cstr n p = cstr n q
  | 0, _, _ => by simp [strncmp, cstr]
  | n + 1, p, q => by
    unfold strncmp cstr
    by_cases hp : p.headD 0 = 0
    · by_cases hq : q.headD 0 = 0
      · rw [if_neg (fun h => h.1 hp), if_pos hp, if_pos hq, hp, hq]
        simp
      have hne : (q.headD 0).toNat ≠ 0 := fun h => hq (UInt8.toNat_inj.mp h)
      rw [if_neg (fun h => h.1 hp), if_pos hp, if_neg hq, hp]
      simp only [reduceCtorEq, iff_false]
      show ((0 : Nat) : Int) - _ ≠ 0
      omega
    by_cases hpq : p.headD 0 = q.headD 0
    · rw [if_pos ⟨hp, hpq⟩, if_neg hp, if_neg (hpq ▸ hp), strncmp_eq_zero n, hpq]
      simp
    have hne : (p.headD 0).toNat ≠ (q.headD 0).toNat := fun h => hpq (UInt8.toNat_inj.mp h)
    rw [if_neg (fun h => hpq h.2), if_neg hp]
    constructor
    · intro h
      omega
    · intro h
      split at h
      · cases h
      · exact absurd (List.cons.inj h).1 hpq

theorem cstr_strncpy : ∀ (n : Nat) (t : List UInt8), cstr n (strncpy n t) = cstr n t
  | 0, _ => rfl
  | n + 1, t => by
    unfold strncpy
    by_cases h : t.headD 0 = 0
    · rw [if_pos h]
      unfold cstr
      rw [if_pos h, List.replicate_succ, if_pos List.headD_cons]
    rw [if_neg h]
    unfold cstr
    rw [if_neg h, if_neg (by simpa using h), List.headD_cons, List.tail_cons, cstr_strncpy n]

theorem namecmp_eq_zero {a b : List UInt8} :
    namecmp a b = 0 ↔ cstr DIRSIZ a = cstr DIRSIZ b := strncmp_eq_zero _ _ _

def Dent.str (e : Dent) : List UInt8 := cstr DIRSIZ e.name

def Dent.isDot (e : Dent) : Bool := e.str == cstr DIRSIZ DOT

theorem hasName_iff : hasName name e = true ↔ e.ino ≠ 0 ∧ cstr DIRSIZ name = e.str := by
  unfold hasName
  rw [Bool.and_eq_true, bne_iff_ne, beq_iff_eq, namecmp_eq_zero]
  rfl

/-! ## Entries -/

section Entries

variable {ds : List Dent} {e : Dent} {k : Nat} {f : Dent → Bool}

theorem find_some (h : find name ds = some (e, k)) : ds[k]? = some e ∧ hasName name e = true :=
  ⟨List.mem_zipIdx_iff_getElem?.mp (List.mem_of_find?_eq_some h),
    List.find?_some (p := fun e : Dent × Nat => hasName name e.1) h⟩

theorem find_none (h : find name ds = none) (he : e ∈ ds) : hasName name e = false := by
  obtain ⟨k, hk⟩ := List.getElem?_of_mem he
  have := List.find?_eq_none.mp h (e, k) (List.mem_zipIdx_iff_getElem?.mpr hk)
  simpa using this

theorem mem_store {e' : Dent} (h : e' ∈ store ds k e) : e' = e ∨ e' ∈ ds := by
  unfold store at h
  split at h
  · rcases List.mem_or_eq_of_mem_set h with h | h
    · exact .inr h
    · exact .inl h
  rcases List.mem_append.mp h with h | h
  · exact .inr h
  · exact .inl (List.mem_singleton.mp h)

/-- The entry goes to a free place, so nothing that counts is overwritten. -/
theorem countP_store (hf : ∀ e, e.ino = 0 → f e = false) :
    (store ds (place ds) e).countP f = ds.countP f + if f e then 1 else 0 := by
  unfold store
  split
  · rename_i hlt
    have hfree : (ds[place ds]).ino = 0 := by
      have hstop := List.findIdx_getElem (w := hlt)
      exact beq_iff_eq.mp hstop
    rw [List.countP_set hlt, hf _ hfree]
    simp
  · rw [List.countP_append]
    simp

theorem store_cons (ha : a.ino ≠ 0) (hb : b.ino ≠ 0) :
    store (a :: b :: ds) (place (a :: b :: ds)) e = a :: b :: store ds (place ds) e := by
  have ha' : (a.ino == 0) = false := by simpa using ha
  have hb' : (b.ino == 0) = false := by simpa using hb
  have hplace : place (a :: b :: ds) = place ds + 2 := by
    simp [place, List.findIdx_cons, ha', hb']
  rw [hplace]
  unfold store
  simp only [List.length_cons, Nat.add_lt_add_iff_right]
  split <;> simp

theorem countP_set_add (hk : ds[k]? = some e) (z : Dent) :
    (ds.set k z).countP f + (if f e then 1 else 0) = ds.countP f + if f z then 1 else 0 := by
  obtain ⟨hlt, he⟩ := List.getElem?_eq_some_iff.mp hk
  rw [List.countP_set hlt, he]
  have hle : (if f e = true then 1 else 0) ≤ ds.countP f := by
    split
    · rename_i h
      exact List.countP_pos_iff.mpr ⟨e, List.mem_of_getElem? hk, h⟩
    · exact Nat.zero_le _
  omega

end Entries

/-! ## Link counts -/

/-- The number of live entries of a directory, other than `.`, that name inode `i`. -/
def Node.names (n : Node) (i : Nat) : Nat :=
  if n.isDir then n.dents.countP (fun e => e.ino == i && !e.isDot) else 0

def links (N : Nat) (node : Nat → Node) (i : Nat) : Nat := ∑ d ∈ Finset.range N, (node d).names i

section Links

variable {N : Nat} {node : Nat → Node} {d i : Nat}

theorem links_update (hd : d < N) (n : Node) :
    links N (update node d n) i + (node d).names i = links N node i + n.names i :=
  sum_update (Finset.mem_range.mpr hd) node n fun m => m.names i

theorem links_congr {node' : Nat → Node} (h : ∀ d, d < N → (node' d).names i = (node d).names i) :
    links N node' i = links N node i :=
  Finset.sum_congr rfl fun d hd => h d (Finset.mem_range.mp hd)

theorem names_congr {n' : Node} (hm : n'.mode = n.mode) (hd : n'.dents = n.dents) :
    n'.names i = n.names i := by
  cases n
  cases n'
  cases hm
  cases hd
  rfl

theorem links_setFile (hi : ¬ (node d).isDir) (hn : ¬ n.isDir) :
    links N (update node d n) i = links N node i := links_congr fun j _ => by
  refine update_cases j ?_ fun _ => ?_
  · rw [Node.names, Node.names, if_neg hn, if_neg hi]
  · rfl

theorem names_pos (hdir : n.isDir) (he : e ∈ n.dents) (hi : e.ino = i) (hdot : e.isDot = false) :
    0 < n.names i := by
  rw [Node.names, if_pos hdir]
  exact List.countP_pos_iff.mpr ⟨e, he, by simp [hi, hdot]⟩

theorem links_pos (hd : d < N) (h : 0 < (node d).names i) : 0 < links N node i :=
  h.trans_le (le_sum (Finset.mem_range.mpr hd) fun d => (node d).names i)

theorem links_eq_zero (h : ∀ d, d < N → (node d).isDir → ∀ e ∈ (node d).dents, e.ino ≠ i) :
    links N node i = 0 := by
  refine Finset.sum_eq_zero fun d hd => ?_
  rw [Node.names]
  split
  · rename_i hdir
    refine List.countP_eq_zero.mpr fun e he hc => ?_
    rw [Bool.and_eq_true, beq_iff_eq] at hc
    exact h d (Finset.mem_range.mp hd) hdir e he hc.1
  · rfl

theorem names_store (v : UInt16) (hdir : n.isDir) (hdot : e.isDot = false) (hi : i ≠ 0) :
    Node.names { n with nlink := v, dents := store n.dents (place n.dents) e } i =
      n.names i + if e.ino = i then 1 else 0 := by
  rw [Node.names, Node.names, if_pos hdir,
    if_pos (show Node.isDir { n with nlink := v, dents := _ } from hdir), countP_store]
  · simp [hdot]
  · intro e he
    simp [he, hi.symm]

theorem names_erase {z : Dent} {k : Nat} (v : UInt16) (hdir : n.isDir) (hk : n.dents[k]? = some e)
    (hz : z.ino = 0) (hdot : e.isDot = false) (hi : i ≠ 0) :
    Node.names { n with nlink := v, dents := n.dents.set k z } i +
      (if e.ino = i then 1 else 0) = n.names i := by
  have hcount := countP_set_add (f := fun e => e.ino == i && !e.isDot) hk z
  rw [Node.names, Node.names, if_pos hdir,
    if_pos (show Node.isDir { n with nlink := v, dents := _ } from hdir)]
  simpa [hdot, hz, hi.symm] using hcount

end Links

/-! ## Shape -/

namespace Node

def parent (n : Node) : Nat := (n.dents[1]?.map Dent.ino).getD 0

def rest (n : Node) : List Dent := n.dents.drop 2

/-- A directory `d` that starts with `.` and `..`. -/
structure Shape (n : Node) (d : Nat) : Prop where
  dents : ∃ a b, n.dents = ⟨d, a⟩ :: ⟨n.parent, b⟩ :: n.rest ∧ cstr DIRSIZ a = cstr DIRSIZ DOT ∧
    cstr DIRSIZ b = cstr DIRSIZ DOTDOT
  parent_ne : n.parent ≠ 0
  plain : ∀ e ∈ n.rest, e.ino ≠ 0 → e.isDot = false

theorem parent_eq (h : n.dents = a :: b :: r) : n.parent = b.ino := by
  rw [parent, h]
  rfl

theorem rest_eq (h : n.dents = a :: b :: r) : n.rest = r := by
  rw [rest, h]
  rfl

end Node

theorem isDot_false_of_dotdot {p : Nat} {b : List UInt8} (h : cstr DIRSIZ b = cstr DIRSIZ DOTDOT) :
    (Dent.mk p b).isDot = false := by
  unfold Dent.isDot Dent.str
  rw [h]
  decide

theorem Node.Shape.names_eq {d i : Nat} (h : n.Shape d) (hdir : n.isDir) (hi : i ≠ 0) :
    n.names i = (if n.parent = i then 1 else 0) + n.rest.countP (fun e => e.ino == i) := by
  obtain ⟨a, b, hd, ha, hb⟩ := h.dents
  have hdot : (Dent.mk d a).isDot = true := by
    unfold Dent.isDot Dent.str
    rw [ha]
    exact beq_self_eq_true _
  have hrest :
      n.rest.countP (fun e => e.ino == i && !e.isDot) = n.rest.countP (fun e => e.ino == i) := by
    refine List.countP_congr fun e he => ?_
    by_cases hei : e.ino = i
    · simp [h.plain e he (hei ▸ hi)]
    · simp [hei]
  rw [Node.names, if_pos hdir, hd, List.countP_cons, List.countP_cons,
    hrest, hdot, isDot_false_of_dotdot hb]
  simp only [Bool.not_true, Bool.and_false, Bool.false_eq_true,
    if_false, Bool.not_false, Bool.and_true, beq_iff_eq]
  omega

theorem Node.Shape.setRest {m : Node} {d : Nat} (h : n.Shape d)
    (hdents : m.dents = n.dents.take 2 ++ r)
    (hplain : ∀ e ∈ r, e.ino ≠ 0 → e.isDot = false) :
    m.Shape d ∧ m.parent = n.parent ∧ m.rest = r := by
  obtain ⟨a, b, hold, ha, hb⟩ := h.dents
  have hnew : m.dents = ⟨d, a⟩ :: ⟨n.parent, b⟩ :: r := by
    rw [hdents, hold]
    rfl
  have hparent : m.parent = n.parent := Node.parent_eq hnew
  have hrest : m.rest = r := Node.rest_eq hnew
  exact ⟨⟨⟨a, b, by rw [hparent, hrest]; exact hnew, ha, hb⟩,
    by rw [hparent]; exact h.parent_ne, by rw [hrest]; exact hplain⟩, hparent, hrest⟩

/-- **The shape of a tree.** -/
structure Shaped (N : Nat) (node : Nat → Node) : Prop where
  small : N ≤ 65536
  zero : (node 0).mode = 0
  root_lt : ROOTINO < N
  root : (node ROOTINO).isDir ∧ (node ROOTINO).parent = ROOTINO
  shape : ∀ d, d < N → (node d).isDir → (node d).Shape d
  named : ∀ d, d < N → (node d).isDir → ∀ e ∈ (node d).dents,
    e.ino ≠ 0 → e.ino < N ∧ (node e.ino).mode ≠ 0
  parentDir : ∀ d, d < N → (node d).isDir → (node (node d).parent).isDir
  once : ∀ c d, c < N → d < N → (node c).isDir → (node d).isDir →
    (node d).rest.countP (fun e => e.ino == c) = if c ≠ ROOTINO ∧ (node c).parent = d then 1 else 0

namespace Shaped

variable {N : Nat} {node : Nat → Node} {d i : Nat}

theorem parent_lt (h : Shaped N node) (hd : d < N) (hdir : (node d).isDir) :
    (node d).parent < N := by
  have hs := h.shape d hd hdir
  obtain ⟨a, b, hdents, _⟩ := hs.dents
  exact (h.named d hd hdir ⟨_, b⟩ (by rw [hdents]; simp) hs.parent_ne).1

theorem mode_ne (h : n.isDir) : n.mode ≠ 0 := by
  intro hz
  unfold Node.isDir at h
  rw [hz] at h
  revert h
  decide

section

variable (h : Shaped N node)
include h

theorem ne_zero (hm : (node i).mode ≠ 0) : i ≠ 0 := fun he => hm (he ▸ h.zero)

theorem linked (hd : d < N) (hdir : (node d).isDir) : 0 < links N node d := by
  have hne := h.ne_zero (mode_ne hdir)
  by_cases hroot : d = ROOTINO
  · subst hroot
    refine links_pos hd ?_
    rw [(h.shape _ hd hdir).names_eq hdir hne, if_pos h.root.2]
    omega
  have hp := h.parent_lt hd hdir
  have hpdir := h.parentDir d hd hdir
  have honce := h.once d _ hd hp hdir hpdir
  rw [if_pos ⟨hroot, rfl⟩] at honce
  refine links_pos hp ?_
  rw [(h.shape _ hp hpdir).names_eq hpdir hne, honce]
  omega

theorem lt_of_links (hi : i ≠ 0) (hl : 0 < links N node i) : i < N := by
  by_contra hge
  have hzero : links N node i = 0 := links_eq_zero fun d hd hdir e he hei => by
    have := (h.named d hd hdir e he (hei ▸ hi)).1
    omega
  omega

theorem unnamed (hz : links N node i = 0) (hi : ¬ (node i).isDir) :
    ∀ d, d < N → (node d).isDir → ∀ e ∈ (node d).dents, e.ino ≠ 0 → e.ino ≠ i := by
  intro d hd hdir e he hlive hei
  have hs := h.shape d hd hdir
  obtain ⟨a, b, hdents, _, hb⟩ := hs.dents
  have hdot : e.isDot = false := by
    rw [hdents] at he
    rcases List.mem_cons.mp he with rfl | he
    · exact absurd (show d = i from hei) (fun h => hi (h ▸ hdir))
    rcases List.mem_cons.mp he with rfl | he
    · exact isDot_false_of_dotdot hb
    · exact hs.plain e he hlive
  have := links_pos hd (names_pos hdir he hei hdot)
  omega

theorem free_unnamed (hfree : (node i).mode = 0) :
    ∀ d, d < N → (node d).isDir → ∀ e ∈ (node d).dents, e.ino ≠ 0 → e.ino ≠ i :=
  fun d hd hdir e he hlive hei => (h.named d hd hdir e he hlive).2 (hei ▸ hfree)

theorem links_free (hfree : (node i).mode = 0) (hi : i ≠ 0) : links N node i = 0 := by
  exact links_eq_zero fun d hd hdir e he hei => h.free_unnamed hfree d hd hdir e he (hei ▸ hi) hei

end

theorem not_isDir_of_free (h : n.mode = 0) : ¬ n.isDir := fun hd => mode_ne hd h

variable (h : Shaped N node)
include h

theorem congr {node' : Nat → Node} (hmode : ∀ i, (node' i).mode = (node i).mode)
    (hdents : ∀ i, (node' i).dents = (node i).dents) : Shaped N node' := by
  have hdir : ∀ i, (node' i).isDir ↔ (node i).isDir := fun i => by unfold Node.isDir; rw [hmode]
  have hparent : ∀ i, (node' i).parent = (node i).parent :=
    fun i => by unfold Node.parent; rw [hdents]
  have hrest : ∀ i, (node' i).rest = (node i).rest := fun i => by unfold Node.rest; rw [hdents]
  refine ⟨h.small, by
    rw [hmode]; exact h.zero, h.root_lt, ⟨(hdir _).mpr h.root.1, by rw [hparent]; exact h.root.2⟩,
    fun d hd hd' => ?_, fun d hd hd' e he hlive => ?_, fun d hd hd' =>
      ?_, fun c d hc hd hc' hd' => ?_⟩
  · obtain ⟨h1, h2, h3⟩ := h.shape d hd ((hdir d).mp hd')
    exact ⟨by rw [hdents, hparent, hrest]; exact h1, by rw [hparent]; exact h2, by
      rw [hrest]; exact h3⟩
  · rw [hmode]
    exact h.named d hd ((hdir d).mp hd') e (hdents d ▸ he) hlive
  · rw [hparent, hdir]
    exact h.parentDir d hd ((hdir d).mp hd')
  · rw [hrest, hparent]
    exact h.once c d hc hd ((hdir c).mp hc') ((hdir d).mp hd')

theorem setFile (hnd : ¬ (node i).isDir) (hnd' : ¬ n.isDir) (hzero : i = 0 → n.mode = 0)
    (hnamed : n.mode ≠ 0 ∨ ∀ d, d < N → (node d).isDir →
      ∀ e ∈ (node d).dents, e.ino ≠ 0 → e.ino ≠ i) :
    Shaped N (update node i n) := by
  have hself : update node i n i = n := update_self ..
  have hne : ∀ d, (update node i n d).isDir → d ≠ i :=
    fun d hd he => hnd' (by rw [he, hself] at hd; exact hd)
  have hold : ∀ d, d ≠ i → update node i n d = node d := fun d hd => update_of_ne hd _ _
  have hkept : ∀ d, (node d).isDir → update node i n d = node d :=
    fun d hd => hold d fun he => hnd (he ▸ hd)
  refine ⟨h.small, ?_, h.root_lt,
    by rw [hkept _ h.root.1]; exact h.root, fun d hd hd' => ?_, fun d hd hd' e he hlive => ?_,
    fun d hd hd' => ?_, fun c d hc hd hc' hd' => ?_⟩
  · by_cases h0 : (0 : Nat) = i
    · rw [h0, hself]
      exact hzero h0.symm
    · rw [hold 0 h0]
      exact h.zero
  · have hdi := hold d (hne d hd')
    rw [hdi] at hd' ⊢
    exact h.shape d hd hd'
  · have hdi := hold d (hne d hd')
    rw [hdi] at hd' he
    obtain ⟨h1, h2⟩ := h.named d hd hd' e he hlive
    refine ⟨h1, ?_⟩
    by_cases hei : e.ino = i
    · rw [hei, hself]
      exact hnamed.resolve_right fun hu => hu d hd hd' e he hlive hei
    · rw [hold _ hei]
      exact h2
  · have hdi := hold d (hne d hd')
    rw [hdi] at hd' ⊢
    have hp := h.parentDir d hd hd'
    rw [hkept _ hp]
    exact hp
  · have hdi := hold d (hne d hd')
    have hci := hold c (hne c hc')
    rw [hdi] at hd' ⊢
    rw [hci] at hc' ⊢
    exact h.once c d hc hd hc' hd'

theorem setRest (hd : d < N) (hdir : (node d).isDir)
    (hmode : n.mode = (node d).mode) (hdents : n.dents = (node d).dents.take 2 ++ r)
    (hplain : ∀ e ∈ r, e.ino ≠ 0 → e.isDot = false)
    (hnamed : ∀ e ∈ r, e.ino ≠ 0 → e.ino < N ∧ (node e.ino).mode ≠ 0)
    (honce : ∀ c, c < N → (node c).isDir →
      r.countP (fun e => e.ino == c) = (node d).rest.countP (fun e => e.ino == c)) :
    Shaped N (update node d n) := by
  obtain ⟨hshape, hparent, hrest⟩ := (h.shape d hd hdir).setRest hdents hplain
  have hmodes : ∀ j, (update node d n j).mode = (node j).mode := fun j => by
    refine update_cases j ?_ fun _ => ?_
    · rw [hmode]
    · rfl
  have hdirs : ∀ j, (update node d n j).isDir ↔ (node j).isDir := fun j => by
    unfold Node.isDir
    rw [hmodes]
  have hparents : ∀ j, (update node d n j).parent = (node j).parent := fun j => by
    refine update_cases j ?_ fun _ => ?_
    · rw [hparent]
    · rfl
  refine ⟨h.small, by rw [hmodes]; exact h.zero, h.root_lt, ⟨(hdirs _).mpr h.root.1,
    by rw [hparents]; exact h.root.2⟩,
    fun j hj hj' => ?_, fun j hj hj' e he hlive => ?_, fun j hj hj' =>
      ?_, fun c j hc hj hc' hj' => ?_⟩
  · exact update_cases j hshape fun _ => h.shape j hj ((hdirs j).mp hj')
  · rw [hmodes]
    by_cases hjd : j = d
    · subst hjd
      rw [update_self, hdents] at he
      rcases List.mem_append.mp he with he | he
      · exact h.named j hd hdir e (List.mem_of_mem_take he) hlive
      · exact hnamed e he hlive
    · rw [update_of_ne hjd] at he
      exact h.named j hj ((hdirs j).mp hj') e he hlive
  · rw [hparents, hdirs]
    exact h.parentDir j hj ((hdirs j).mp hj')
  · rw [hparents]
    refine update_cases j ?_ fun _ => ?_
    · rw [hrest, honce c hc ((hdirs c).mp hc')]
      exact h.once c d hc hd ((hdirs c).mp hc') hdir
    · exact h.once c j hc hj ((hdirs c).mp hc') ((hdirs j).mp hj')

end Shaped

/-- **Link counts**; `x` is an inode with one link that is not entered yet. -/
def Counted (N : Nat) (node : Nat → Node) (x : Option Nat) : Prop :=
  ∀ i, i < N → (node i).mode ≠ 0 →
    asShort (node i).nlink = (links N node i : Int) + if x = some i then 1 else 0

structure WellFormed (N : Nat) (node : Nat → Node) (x : Option Nat) : Prop where
  shaped : Shaped N node
  counted : Counted N node x

/-! ## Link counts as shorts -/

theorem asShort_add (h : asShort v < 32767) (h0 : 0 ≤ asShort v) :
    asShort (v + 1) = asShort v + 1 := by
  have hadd : (v + 1).toNat = (v.toNat + 1) % 65536 := UInt16.toNat_add v 1
  unfold asShort at *
  split at h
  · rw [if_pos (by omega), if_pos (by omega), hadd]
    omega
  · omega

theorem asShort_sub (h : 0 < asShort v) : asShort (v - 1) = asShort v - 1 := by
  have hv : v.toNat < 65536 := v.toNat_lt
  unfold asShort at *
  split at h
  · have hsub : (v - 1).toNat = v.toNat - 1 :=
      UInt16.toNat_sub_of_le v 1 (by rw [UInt16.le_iff_toNat_le]; show 1 ≤ _; omega)
    rw [if_pos (by omega), if_pos (by omega), hsub]
    omega
  · omega

theorem asShort_eq_zero (h : asShort v = 0) : v = 0 := by
  have hv : v.toNat < 65536 := v.toNat_lt
  unfold asShort at h
  split at h
  · exact UInt16.toNat_inj.mp (by show v.toNat = 0; omega)
  · omega

/-! ## Edits -/

namespace WellFormed

variable {N : Nat} {node : Nat → Node} {x : Option Nat} {d i k : Nat}

theorem nlink_of_dir (h : WellFormed N node x) (hd : d < N) (hdir : (node d).isDir) :
    0 < asShort (node d).nlink := by
  rw [h.counted d hd (Shaped.mode_ne hdir)]
  have := h.shaped.linked hd hdir
  split <;> omega

theorem setNlink (h : Shaped N node) {y : Option Nat} (hc : ∀ j, j < N → (node j).mode ≠ 0 → j ≠ i →
      asShort (node j).nlink = (links N node j : Int) + if y = some j then 1 else 0)
    (hv : asShort v = (links N node i : Int) + if y = some i then 1 else 0) :
    WellFormed N (update node i { node i with nlink := v }) y := by
  have hmode : ∀ j, (update node i { node i with nlink := v } j).mode = (node j).mode := fun j => by
    exact update_cases j rfl fun _ => rfl
  have hdents :
      ∀ j, (update node i { node i with nlink := v } j).dents = (node j).dents := fun j => by
    exact update_cases j rfl fun _ => rfl
  have hlinks :
      ∀ j, links N (update node i { node i with nlink := v }) j = links N node j := fun j =>
    links_congr fun d _ => names_congr (hmode d) (hdents d)
  refine ⟨h.congr hmode hdents, fun j hj hm => ?_⟩
  rw [hmode] at hm
  rw [hlinks]
  exact update_cases j hv fun hji => hc j hj hm hji

theorem link (h : WellFormed N node none) (hi : i < N) (hm : (node i).mode ≠ 0)
    (hmax : asShort (node i).nlink < 32767) :
    WellFormed N (update node i { node i with nlink := (node i).nlink + 1 }) (some i) := by
  have hcount := h.counted i hi hm
  rw [if_neg (by simp), Int.add_zero] at hcount
  refine setNlink h.shaped (fun j hj hmj hji => ?_) ?_
  · rw [h.counted j hj hmj, if_neg (by simp), if_neg fun he => hji (Option.some.inj he).symm]
  · rw [if_pos rfl, asShort_add hmax (by omega), hcount]

theorem unlink (h : WellFormed N node (some i)) (hi : i < N) (hm : (node i).mode ≠ 0) :
    WellFormed N (update node i { node i with nlink := (node i).nlink - 1 }) none := by
  have hcount := h.counted i hi hm
  rw [if_pos rfl] at hcount
  refine setNlink h.shaped (fun j hj hmj hji => ?_) ?_
  · rw [h.counted j hj hmj, if_neg fun he => hji (Option.some.inj he).symm, if_neg (by simp)]
  · rw [if_neg (by simp), asShort_sub (by omega), hcount]
    omega

section

variable (h : WellFormed N node x)
include h

/-- What is freed for want of links is not a directory. -/
theorem not_isDir (hi : i < N) (hz : (node i).nlink = 0) : ¬ (node i).isDir := by
  intro hdir
  have := h.nlink_of_dir hi hdir
  rw [hz] at this
  exact absurd this (by decide)

theorem free (hi : i < N) (hm : (node i).mode ≠ 0) (hz : (node i).nlink = 0) :
    WellFormed N (update node i { node i with mode := 0, dents := [] }) x := by
  have hnd := h.not_isDir hi hz
  have hcount := h.counted i hi hm
  rw [hz] at hcount
  have hlinks : links N node i = 0 := by
    have h0 : asShort 0 = 0 := by decide
    split at hcount <;> omega
  have hfree : ¬ ({ node i with mode := 0, dents := [] } : Node).isDir :=
    Shaped.not_isDir_of_free rfl
  refine ⟨h.shaped.setFile hnd hfree (fun _ => rfl) (.inr (h.shaped.unnamed hlinks hnd)),
    fun j hj hmj => ?_⟩
  have hji : j ≠ i := fun he => hmj (by rw [he, update_self])
  rw [update_of_ne hji] at hmj ⊢
  rw [h.counted j hj hmj, links_setFile hnd hfree]

theorem truncate (hm : (node i).mode ≠ 0) (hnd : ¬ (node i).isDir) :
    WellFormed N (update node i { node i with dents := [] }) x := by
  have hnd' : ¬ ({ node i with dents := [] } : Node).isDir := hnd
  refine ⟨h.shaped.setFile hnd hnd' (fun he => absurd he (h.shaped.ne_zero hm)) (.inl hm),
    fun j hj hmj => ?_⟩
  rw [links_setFile hnd hnd']
  by_cases hji : j = i
  · subst hji
    rw [update_self]
    exact h.counted j hj hm
  · rw [update_of_ne hji] at hmj ⊢
    exact h.counted j hj hmj

end

theorem newFile (h : WellFormed N node none) (hi0 : i ≠ 0) (hfree : (node i).mode = 0)
    (hm : n.mode ≠ 0) (hnd : ¬ n.isDir) (hlink : n.nlink = 1) :
    WellFormed N (update node i n) (some i) := by
  have hold := Shaped.not_isDir_of_free hfree
  refine ⟨h.shaped.setFile hold hnd (fun he => absurd he hi0) (.inl hm), fun j hj hmj => ?_⟩
  rw [links_setFile hold hnd]
  by_cases hji : j = i
  · subst hji
    have hz : links N node j = 0 := h.shaped.links_free hfree hi0
    rw [update_self, hlink, if_pos rfl, hz]
    decide
  · rw [update_of_ne hji] at hmj ⊢
    rw [h.counted j hj hmj, if_neg (by simp), if_neg fun he => hji (Option.some.inj he).symm]

theorem setDents (h : WellFormed N node x) (hd : d < N) {y : Option Nat} {ds : List Dent}
    (hshaped : Shaped N (update node d { node d with dents := ds }))
    (hnames : ∀ j, j ≠ 0 →
      Node.names { node d with dents := ds } j + (if y = some j then 1 else 0) =
      (node d).names j + if x = some j then 1 else 0) :
    WellFormed N (update node d { node d with dents := ds }) y := by
  refine ⟨hshaped, fun j hj hmj => ?_⟩
  have hsame : (update node d { node d with dents := ds } j).mode = (node j).mode ∧
      (update node d { node d with dents := ds } j).nlink = (node j).nlink := by
    exact update_cases j ⟨rfl, rfl⟩ fun _ => ⟨rfl, rfl⟩
  rw [hsame.1] at hmj
  have hlinks := @links_update _ node _ j hd { node d with dents := ds }
  have := hnames j (h.shaped.ne_zero hmj)
  rw [hsame.2, h.counted j hj hmj]
  split_ifs at this ⊢ <;> omega

theorem enter (h : WellFormed N node (some i)) (hd : d < N) (hdir : (node d).isDir) (hi : i < N)
    (hm : (node i).mode ≠ 0) (hnd : ¬ (node i).isDir) {nm : List UInt8}
    (hdot : (Dent.mk i nm).isDot = false) :
    WellFormed N (update node d
      { node d with dents := store (node d).dents (place (node d).dents) ⟨i, nm⟩ }) none := by
  have hs := h.shaped.shape d hd hdir
  obtain ⟨a, b, hold, _, _⟩ := hs.dents
  have hd0 := h.shaped.ne_zero (Shaped.mode_ne hdir)
  refine h.setDents hd (h.shaped.setRest (r := store (node d).rest (place (node d).rest) ⟨i, nm⟩)
    hd hdir rfl ?_ (fun e he hlive => ?_)
    (fun e he hlive => ?_) (fun c hc hcdir => ?_)) fun j hj => ?_
  · show store (node d).dents (place (node d).dents) ⟨i, nm⟩ = _
    rw [hold, store_cons hd0 hs.parent_ne]
    rfl
  · rcases mem_store he with rfl | he
    · exact hdot
    · exact hs.plain e he hlive
  · rcases mem_store he with rfl | he
    · exact ⟨hi, hm⟩
    · exact h.shaped.named d hd hdir e (by rw [hold]; simp [he]) hlive
  · have hc0 := h.shaped.ne_zero (Shaped.mode_ne hcdir)
    rw [countP_store fun e he => by simp [he, hc0.symm], if_neg ?_, Nat.add_zero]
    rw [beq_iff_eq]
    exact fun he : i = c => hnd (he ▸ hcdir)
  · have hnames :
        Node.names { node d with dents := store (node d).dents (place (node d).dents) ⟨i, nm⟩ } j =
        (node d).names j + if i = j then 1 else 0 := names_store _ hdir hdot hj
    rw [hnames]
    simp

theorem rest_of_getElem? (h : Shaped N node) (hd : d < N) (hdir : (node d).isDir)
    (hk : (node d).dents[k + 2]? = some e) : (node d).rest[k]? = some e := by
  obtain ⟨a, b, hold, _⟩ := (h.shape d hd hdir).dents
  rw [hold] at hk
  simpa using hk

theorem erase (h : WellFormed N node none) (hd : d < N) (hdir : (node d).isDir)
    {z : Dent} (hk : (node d).dents[k + 2]? = some e)
    (hlive : e.ino ≠ 0) (hnd : ¬ (node e.ino).isDir) (hz : z.ino = 0) :
    WellFormed N (update node d { node d with dents := (node d).dents.set (k + 2) z })
      (some e.ino) := by
  have hs := h.shaped.shape d hd hdir
  obtain ⟨a, b, hold, _, _⟩ := hs.dents
  have hrest := rest_of_getElem? h.shaped hd hdir hk
  have hdot := hs.plain e (List.mem_of_getElem? hrest) hlive
  have hmem : ∀ e' ∈ (node d).rest.set k z, e'.ino ≠ 0 → e' ∈ (node d).rest := fun e' he' hl => by
    rcases List.mem_or_eq_of_mem_set he' with he' | rfl
    · exact he'
    · exact absurd hz hl
  refine h.setDents hd
    (h.shaped.setRest hd hdir rfl ?_ (fun e' he' hl => hs.plain e' (hmem e' he' hl) hl)
    (fun e' he' hl => h.shaped.named d hd hdir e' (by rw [hold]; simp [hmem e' he' hl]) hl)
      (fun c hc hcdir => ?_)) fun j hj => ?_
  · show (node d).dents.set (k + 2) z = _
    rw [hold]
    rfl
  · have hc0 := h.shaped.ne_zero (Shaped.mode_ne hcdir)
    have hec : e.ino ≠ c := fun he => hnd (he ▸ hcdir)
    have hcount := countP_set_add (f := fun e => e.ino == c) hrest z
    simpa [hec, hz, hc0.symm] using hcount
  · have hnames : Node.names { node d with dents := (node d).dents.set (k + 2) z } j +
        (if e.ino = j then 1 else 0) = (node d).names j := names_erase _ hdir hk hz hdot hj
    simpa using hnames

end WellFormed

end Micro86.Tree
