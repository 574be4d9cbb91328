import Micro86.File.Table
import Micro86.Lib.Counting

/-!
# Reference counts of the file table

In the middle of a call an entry may have a reference that no descriptor stands for yet, or a
descriptor whose reference is still to be counted.  `Ok s e fresh` allows for that: `e f` is the
difference at the entry `f`, and `fresh` are the entries just allocated that stand for nothing yet.
Between calls `e` is zero and `fresh` empty.

* `Ok.alloc`, `Ok.dup`, `Ok.drop`, `Ok.setSlot`, `Ok.assign` — what each operation does to `e`.
-/

namespace Micro86.Files

open Exec (wp wp_bind wp_get wp_modify wp_pure wp_panic)
open Function

variable {s : Table} {f : Fin NFILE}

def points (v : Option (Fin NFILE)) (f : Fin NFILE) : Nat := if v = some f then 1 else 0

def Table.count (s : Table) (f : Fin NFILE) : Nat := ∑ x : Slot, points (s.ofile x) f

theorem Table.count_setSlot (s : Table) (x : Slot) (v : Option (Fin NFILE)) (f : Fin NFILE) :
    (s.setSlot x v).count f + points (s.ofile x) f = s.count f + points v f :=
  sum_update (Finset.mem_univ x) s.ofile v (fun w => points w f)

theorem Table.count_pos {x : Slot} (h : s.ofile x = some f) : 1 ≤ s.count f := by
  have hle := le_sum (Finset.mem_univ x) (fun y => points (s.ofile y) f)
  rw [points, if_pos h] at hle
  exact hle

theorem Table.exists_slot (h : 0 < s.count f) : ∃ x, s.ofile x = some f := by
  by_contra hnone
  have hzero : s.count f = 0 :=
    Finset.sum_eq_zero (fun x _ => if_neg (fun hx => hnone ⟨x, hx⟩))
  omega

/-! ## What entries stand for -/

/-- Everything put in an entry is there or was released, once. -/
structure Objects (s : Table) : Prop where
  free : ∀ f, (s.file f).ref = 0 → (s.file f).obj = none
  held : ∀ f x, (s.file f).obj = some x →
    s.made[(s.file f).serial]? = some x ∧ (s.file f).serial ∉ s.released.map Prod.fst
  unique : ∀ f g, (s.file f).obj ≠ none → (s.file g).obj ≠ none →
    (s.file f).serial = (s.file g).serial → f = g
  accounted : ∀ o x, s.made[o]? = some x →
    (o, x) ∈ s.released ∨ ∃ f, (s.file f).obj = some x ∧ (s.file f).serial = o
  sound : ∀ o x, (o, x) ∈ s.released → s.made[o]? = some x
  once : (s.released.map Prod.fst).Nodup

structure Ok (s : Table) (e : Fin NFILE → Int) (fresh : List (Fin NFILE)) : Prop where
  refs : ∀ f, ((s.file f).ref : Int) = s.count f + e f
  idle : ∀ x : Slot, s.status x.1 = .unused ∨ s.status x.1 = .zombie → s.ofile x = none
  typed : ∀ f, 0 < (s.file f).ref → (s.file f).obj ≠ none ∨ f ∈ fresh
  objs : Objects s

theorem Objects.of_obj {t : Table} (h : Objects s)
    (hfree : ∀ f, (t.file f).ref = 0 → (t.file f).obj = none)
    (hobj : ∀ f, (t.file f).obj = (s.file f).obj)
    (hserial : ∀ f, (t.file f).serial = (s.file f).serial)
    (hmade : t.made = s.made) (hrel : t.released = s.released) : Objects t := by
  refine ⟨hfree, fun f x hf => ?_, fun f g hf hg => ?_, fun o x ho => ?_, ?_, ?_⟩
  · rw [hmade, hrel, hserial]
    exact h.held f x ((hobj f).symm.trans hf)
  · rw [hserial, hserial]
    exact h.unique f g (by rwa [← hobj]) (by rwa [← hobj])
  · rw [hmade] at ho
    rw [hrel]
    refine (h.accounted o x ho).imp_right ?_
    rintro ⟨f, hf, hs⟩
    exact ⟨f, (hobj f).trans hf, (hserial f).trans hs⟩
  · rw [hmade, hrel]
    exact h.sound
  · rw [hrel]
    exact h.once

namespace Table

variable (s : Table) (f : Fin NFILE)

theorem setFile_self (v : File) : (s.setFile f v).file f = v := update_self ..

theorem setFile_ne {g : Fin NFILE} (h : g ≠ f) (v : File) :
    (s.setFile f v).file g = s.file g := update_of_ne h ..

theorem setRef_ref (n : Nat) (g : Fin NFILE) :
    ((s.setRef f n).file g).ref = if g = f then n else (s.file g).ref := by
  split
  · rename_i hg
    subst hg
    rw [setRef, setFile_self]
  · rename_i hg
    rw [setRef, setFile_ne _ _ hg]

theorem setRef_obj (n : Nat) (g : Fin NFILE) : ((s.setRef f n).file g).obj = (s.file g).obj := by
  by_cases hg : g = f
  · subst hg
    rw [setRef, setFile_self]
    rfl
  · rw [setRef, setFile_ne _ _ hg]

theorem setRef_serial (n : Nat) (g : Fin NFILE) :
    ((s.setRef f n).file g).serial = (s.file g).serial := by
  by_cases hg : g = f
  · subst hg
    rw [setRef, setFile_self]
  · rw [setRef, setFile_ne _ _ hg]

end Table

@[simp] theorem points_none (f : Fin NFILE) : points none f = 0 := rfl

theorem points_some (f g : Fin NFILE) : points (some f) g = if g = f then 1 else 0 := by
  by_cases h : g = f
  · rw [points, if_pos (by rw [h]), if_pos h]
  · rw [points, if_neg (fun he => h (Option.some.inj he).symm), if_neg h]

theorem Objects.vacate (h : Objects s) (f : Fin NFILE) : Objects (s.vacate f) := by
  have hself : ((s.vacate f).file f).obj = none := by
    rw [show (s.vacate f).file f = _ from s.setFile_self f _]
    rfl
  have hne : ∀ g, g ≠ f → (s.vacate f).file g = s.file g := fun g hg => s.setFile_ne f hg _
  have hlive : ∀ g, ((s.vacate f).file g).obj ≠ none → g ≠ f := fun g hg he => hg (he ▸ hself)
  have hmem : ∀ o x, (o, x) ∈ (s.vacate f).released ↔ (o, x) ∈ s.released ∨
      ((s.file f).obj = some x ∧ (s.file f).serial = o) := by
    intro o x
    simp only [Table.vacate, List.mem_append, Option.mem_toList,
      Option.map_eq_some_iff, Prod.mk.injEq]
    refine or_congr_right ⟨?_, ?_⟩
    · rintro ⟨y, hy, ho, rfl⟩
      exact ⟨hy, ho⟩
    · rintro ⟨hx, ho⟩
      exact ⟨x, hx, ho, rfl⟩
  refine ⟨fun g hg => ?_, fun g x hg => ?_, fun g g' hg hg' hs => ?_,
    fun o x ho => ?_, fun o x ho => ?_, ?_⟩
  · by_cases hgf : g = f
    · rw [hgf]
      exact hself
    · rw [hne g hgf] at hg ⊢
      exact h.free g hg
  · have hgf := hlive g (by rw [hg]; exact Option.some_ne_none x)
    rw [hne g hgf] at hg ⊢
    obtain ⟨hmade, hrel⟩ := h.held g x hg
    refine ⟨hmade, fun hin => ?_⟩
    obtain ⟨⟨o, y⟩, hoy, ho⟩ := List.mem_map.mp hin
    rcases (hmem o y).mp hoy with hold | ⟨hy, hs⟩
    · exact hrel (List.mem_map.mpr ⟨(o, y), hold, ho⟩)
    · refine hgf (h.unique g f (by rw [hg]; exact Option.some_ne_none x)
        (by rw [hy]; exact Option.some_ne_none y) ?_)
      exact ho.symm.trans hs.symm
  · have hgf := hlive g hg
    have hgf' := hlive g' hg'
    rw [hne g hgf] at hg hs
    rw [hne g' hgf'] at hg' hs
    exact h.unique g g' hg hg' hs
  · rcases h.accounted o x ho with hold | ⟨g, hg, hs⟩
    · exact .inl ((hmem o x).mpr (.inl hold))
    by_cases hgf : g = f
    · subst hgf
      exact .inl ((hmem o x).mpr (.inr ⟨hg, hs⟩))
    · exact .inr ⟨g, by rwa [hne g hgf], by rwa [hne g hgf]⟩
  · rcases (hmem o x).mp ho with hold | ⟨hx, hs⟩
    · exact h.sound o x hold
    · rw [← hs]
      exact (h.held f x hx).1
  · simp only [Table.vacate, List.map_append]
    cases hx : (s.file f).obj with
    | none => simpa using h.once
    | some x =>
      refine List.Nodup.append h.once (by simp) ?_
      intro o ho ho'
      simp only [Option.map_some, Option.toList_some, List.map_cons,
        List.map_nil, List.mem_singleton] at ho'
      subst ho'
      exact (h.held f x hx).2 ho

theorem Objects.assign (h : Objects s) {v : File} {x : Obj} (href : 0 < (s.file f).ref)
    (hf : (s.file f).obj = none) (hv : v.obj = some x) : Objects (s.assign f v x) := by
  have hself : (s.assign f v x).file f =
      { v with ref := (s.file f).ref, serial := s.made.length } := s.setFile_self f _
  have hobj : ((s.assign f v x).file f).obj = some x := by
    rw [hself]
    exact hv
  have hne : ∀ g, g ≠ f → (s.assign f v x).file g = s.file g := fun g hg => s.setFile_ne f hg _
  have hlt : ∀ g, (s.file g).obj ≠ none → (s.file g).serial < s.made.length := by
    intro g hg
    obtain ⟨y, hy⟩ := Option.ne_none_iff_exists'.mp hg
    exact (List.getElem?_eq_some_iff.mp (h.held g y hy).1).1
  have hrel : ∀ o, o ∈ s.released.map Prod.fst → o < s.made.length := by
    intro o ho
    obtain ⟨⟨o', y⟩, hoy, rfl⟩ := List.mem_map.mp ho
    exact (List.getElem?_eq_some_iff.mp (h.sound o' y hoy)).1
  have hmade : ∀ (o : Nat) y, s.made[o]? = some y → (s.made ++ [x])[o]? = some y := by
    intro o y ho
    rw [List.getElem?_append_left (List.getElem?_eq_some_iff.mp ho).1, ho]
  refine ⟨fun g hg => ?_, fun g y hg => ?_, fun g g' hg hg' hs => ?_,
    fun o y ho => ?_, fun o y ho => hmade o y (h.sound o y ho), h.once⟩
  · by_cases hgf : g = f
    · subst hgf
      rw [hself] at hg
      exact absurd hg href.ne'
    · rw [hne g hgf] at hg ⊢
      exact h.free g hg
  · by_cases hgf : g = f
    · subst hgf
      rw [hobj] at hg
      cases hg
      rw [hself]
      exact ⟨List.getElem?_concat_length, fun ho => absurd (hrel _ ho) (Nat.lt_irrefl _)⟩
    · rw [hne g hgf] at hg ⊢
      exact ⟨hmade _ y (h.held g y hg).1, (h.held g y hg).2⟩
  · by_cases hgf : g = f
    · by_cases hgf' : g' = f
      · rw [hgf, hgf']
      rw [hgf, hself, hne g' hgf'] at hs
      rw [hne g' hgf'] at hg'
      exact absurd hs (hlt g' hg').ne'
    rw [hne g hgf] at hg hs
    by_cases hgf' : g' = f
    · rw [hgf', hself] at hs
      exact absurd hs (hlt g hg).ne
    · rw [hne g' hgf'] at hg' hs
      exact h.unique g g' hg hg' hs
  · rcases Nat.lt_trichotomy o s.made.length with hlt' | heq | hgt
    · have hold : s.made[o]? = some y := by
        rw [← ho]
        exact (List.getElem?_append_left hlt').symm
      refine (h.accounted o y hold).imp_right ?_
      rintro ⟨g, hg, hs⟩
      have hgf : g ≠ f := by
        rintro rfl
        rw [hf] at hg
        cases hg
      exact ⟨g, by rwa [hne g hgf], by rwa [hne g hgf]⟩
    · subst heq
      have hxy : x = y := by
        have : (s.made ++ [x])[s.made.length]? = some y := ho
        rw [List.getElem?_concat_length] at this
        exact Option.some.inj this
      exact .inr ⟨f, by rw [hobj, hxy], by rw [hself]⟩
    · have hnone : (s.made ++ [x])[o]? = none :=
        List.getElem?_eq_none (by simp only [List.length_append, List.length_singleton]; omega)
      have : (s.made ++ [x])[o]? = some y := ho
      rw [hnone] at this
      cases this

/-! ## One operation -/

namespace Ok

variable {s : Table} {e : Fin NFILE → Int} {fresh : List (Fin NFILE)}

variable (h : Ok s e fresh)
include h

theorem mono {fresh' : List (Fin NFILE)} (hsub : ∀ f, f ∈ fresh → f ∈ fresh') : Ok s e fresh' :=
  ⟨h.refs, h.idle, fun f hf => (h.typed f hf).imp_right (hsub f), h.objs⟩

theorem congr {e' : Fin NFILE → Int} (he : ∀ f, e f = e' f) : Ok s e' fresh :=
  ⟨fun f => by rw [← he]; exact h.refs f, h.idle, h.typed, h.objs⟩

theorem setRef (f : Fin NFILE) (n : Nat) (d : Int) (hn : 0 < n)
    (hd : (n : Int) = (s.file f).ref + d)
    (hf : 0 < (s.file f).ref ∨ f ∈ fresh) :
    Ok (s.setRef f n) (fun g => e g + d * points (some f) g) fresh := by
  refine ⟨fun g => ?_, h.idle, fun g hg => ?_, ?_⟩
  · have hcount : (s.setRef f n).count g = s.count g := rfl
    have hrefs := h.refs g
    rw [s.setRef_ref, hcount, points_some]
    split
    · rename_i hgf
      subst hgf
      push_cast
      omega
    · push_cast
      omega
  · rw [s.setRef_obj]
    rw [s.setRef_ref] at hg
    split at hg
    · rename_i hgf
      subst hgf
      exact hf.elim (h.typed g) .inr
    · exact h.typed g hg
  · refine h.objs.of_obj (fun g hg => ?_) (s.setRef_obj f n) (s.setRef_serial f n) rfl rfl
    rw [s.setRef_obj]
    rw [s.setRef_ref] at hg
    split at hg
    · omega
    · exact h.objs.free g hg

theorem setSlot (x : Slot) (v : Option (Fin NFILE))
    (hx : v = none ∨ s.status x.1 = .live ∨ s.status x.1 = .embryo) :
    Ok (s.setSlot x v) (fun g => e g + points (s.ofile x) g - points v g) fresh := by
  refine ⟨fun g => ?_, fun y hy => ?_, h.typed,
    ⟨h.objs.free, h.objs.held, h.objs.unique, h.objs.accounted, h.objs.sound, h.objs.once⟩⟩
  · have hcount := s.count_setSlot x v g
    have hrefs : ((s.file g).ref : Int) = s.count g + e g := h.refs g
    have : ((s.setSlot x v).file g).ref = (s.file g).ref := rfl
    omega
  · have hyidle := h.idle y hy
    by_cases hyx : y = x
    · subst hyx
      rcases hx with rfl | hlive | hembryo
      · exact update_self ..
      · rcases hy with hy | hy <;> exact absurd (hlive.symm.trans hy) (by decide)
      · rcases hy with hy | hy <;> exact absurd (hembryo.symm.trans hy) (by decide)
    · exact (update_of_ne hyx ..).trans hyidle

theorem setStatus (p : Fin NPROC) (v : Status)
    (hp : v = .live ∨ v = .embryo ∨ ∀ fd, s.ofile (p, fd) = none) :
    Ok (s.setStatus p v) e fresh := by
  refine ⟨h.refs, fun x hx => ?_, h.typed,
    ⟨h.objs.free, h.objs.held, h.objs.unique, h.objs.accounted, h.objs.sound, h.objs.once⟩⟩
  by_cases hxp : x.1 = p
  · rcases hp with rfl | rfl | hnone
    · simp [Table.setStatus, hxp] at hx
    · simp [Table.setStatus, hxp] at hx
    · have := hnone x.2
      rwa [← hxp] at this
  · simp only [Table.setStatus, update_of_ne hxp] at hx
    exact h.idle x hx

theorem alloc (hf : (s.file f).ref = 0) :
    Ok (s.setRef f 1) (fun g => e g + points (some f) g) (f :: fresh) :=
  ((h.mono (fun _ => List.mem_cons_of_mem f)).setRef f 1 1 (by decide)
    (by rw [hf]; rfl) (.inr List.mem_cons_self)).congr (fun g => by rw [one_mul])

theorem dup (hf : 1 ≤ (s.file f).ref) :
    Ok (s.setRef f ((s.file f).ref + 1)) (fun g => e g + points (some f) g) fresh :=
  (h.setRef f _ 1 (Nat.succ_pos _) (by push_cast; rfl) (.inl hf)).congr (fun g => by rw [one_mul])

theorem drop (hf : 1 ≤ (s.file f).ref) :
    Ok (s.dropRef f) (fun g => e g - points (some f) g) fresh := by
  unfold Table.dropRef
  split
  · rename_i hmore
    exact (h.setRef f _ (-1) hmore (by omega) (.inl hf)).congr (fun g => by ring)
  have hself : (s.vacate f).file f = { s.file f with ref := 0, type := .none } := s.setFile_self f _
  have hne : ∀ g, g ≠ f → (s.vacate f).file g = s.file g := fun g hg => s.setFile_ne f hg _
  refine ⟨fun g => ?_, h.idle, fun g hg => ?_, h.objs.vacate f⟩
  · have hcount : (s.vacate f).count g = s.count g := rfl
    have hrefs := h.refs g
    rw [hcount, points_some]
    by_cases hgf : g = f
    · subst hgf
      rw [hself, if_pos rfl]
      push_cast
      omega
    rw [hne g hgf, if_neg hgf]
    push_cast
    omega
  · have hgf : g ≠ f := by
      rintro rfl
      rw [hself] at hg
      exact absurd hg (Nat.lt_irrefl 0)
    rw [hne g hgf] at hg ⊢
    exact h.typed g hg

theorem assign {v : File} {x : Obj} (href : 0 < (s.file f).ref)
    (hf : (s.file f).obj = none) (hv : v.obj = some x) {fresh' : List (Fin NFILE)}
    (hfresh : ∀ g, g ∈ fresh → g = f ∨ g ∈ fresh') :
    Ok (s.assign f v x) e fresh' := by
  have hself : (s.assign f v x).file f =
      { v with ref := (s.file f).ref, serial := s.made.length } := s.setFile_self f _
  have hne : ∀ g, g ≠ f → (s.assign f v x).file g = s.file g := fun g hg => s.setFile_ne f hg _
  refine ⟨fun g => ?_, h.idle, fun g hg => ?_, h.objs.assign href hf hv⟩
  · by_cases hgf : g = f
    · subst hgf
      rw [hself]
      exact h.refs g
    · rw [hne g hgf]
      exact h.refs g
  · by_cases hgf : g = f
    · subst hgf
      refine .inl ?_
      rw [hself]
      exact ne_of_eq_of_ne hv (Option.some_ne_none x)
    rw [hne g hgf] at hg ⊢
    rcases h.typed g hg with hobj | hin
    · exact .inl hobj
    · exact .inr ((hfresh g hin).resolve_left hgf)

end Ok

end Micro86.Files
