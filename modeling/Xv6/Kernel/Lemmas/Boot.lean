import Xv6.Fs.Lemmas.Mount
import Xv6.Kernel.Lemmas.ProcCalls

/-!
# The first process

`user_init` leaves a state in which the counts are exact, over the image of `mkfs`. With the specifications of
the system calls, the invariant holds in every reachable state.
-/

namespace Xv6.Kernel

open Xv6.Lib Xv6.Fs Xv6.Vm Xv6.Mkfs

section

variable {host : Host} {disk : Nat → Bytes} {N N' : Nat → Node} {console : Nat → Option (List UInt8)}
    {m : Mem} {k : System}

theorem refs_none {α β : Type} [Fintype α] [DecidableEq α] [DecidableEq β] (b : β) : refs (fun _ : α => none) b = 0 :=
  refs_eq_zero.mpr fun _ => by simp

theorem inv_initial (h : IsImage host disk N) : Inv (System.initial disk m console) where
  quiet := quiet_mount h
  table := {
    file := fun f => by
      rw [show fdsOf (System.initial disk m console).procs = fun _ => none from rfl, refs_none]
      rfl
    closed := fun _ _ => rfl
    inode := fun ip => by
      rw [show inodeOf (System.initial disk m console).files = fun _ => none from rfl,
        show cwdsOf (System.initial disk m console).procs = fun _ => none from rfl, refs_none, refs_none]
      rfl
    off := fun _ => Nat.two_pow_pos 64
    writable := fun f ip h0 => absurd h0 (by simp [inodeOf, System.initial, File.inode]) }
  lives := ⟨fun _ => Or.inl rfl, fun _ h0 => ProcState.noConfusion h0, fun _ _ => ⟨rfl, fun _ => rfl⟩⟩

/-- Nothing is freed where every node has a link. -/
theorem frees_eq (h : Flat N) (hf : Frees N N') : N' = N := by
  induction hf with
  | refl => rfl
  | tail _ hs ih =>
      subst ih
      obtain ⟨i, hi, h0, -⟩ := hs
      exact absurd h0 (h.nlink_ne hi)

/-- The root directory is found without a working directory. -/
theorem namei_root {s : Fs.State} {cwd : Slot} (hq : Quiet s) :
    Wp (namei cwd [slash]) (fun r t => ∃ ip, r = some ip ∧ Did s s.node (one ip) t) (fun _ => True) s := by
  unfold namei
  have habs : (cstr [slash]).headD 0 = slash := by decide
  have hres : resolve s.node (s.cell cwd).inum [slash] false = some (1, []) := by
    rw [resolve, if_pos habs]
    exact walk_none (by decide)
  have hspec : Wp (namex cwd [slash] false) _ _ s :=
    namex_spec hq.wf hq.tree hq.noLost hq.unlocked [slash] false fun h => absurd habs h
  rw [hres] at hspec
  refine Wp.seq hspec (fun _ _ => trivial) ?_
  rintro r t ⟨ip, rfl, h, hi, -⟩
  refine ⟨ip, rfl, hq.did h fun jp h0 => ?_⟩
  rw [one_pos h0, hi, hq.tree.root]
  decide

theorem userInit_spec {initcode : List UInt8} (h : Inv k) :
    Wp (userInit initcode) (fun _ k' => Inv k' ∧ Frees k.fs.node k'.fs.node) (fun _ => True) k := by
  unfold userInit
  refine Wp.bind (allocProc_spec h) ?_
  rintro r k1 ⟨procs1, h1, hr⟩
  cases r with
  | none => trivial
  | some new =>
      obtain ⟨hm, ho⟩ := hr
      dsimp only
      rw [wp_bind, wp_modify]
      have h1' : Point k.fs.node procs1 (fdsOf procs1) (cwdsOf procs1) 0 0 { k1 with initProc := some new } :=
        ⟨h1.quiet, h1.table, h1.frees, h1.procs⟩
      refine Wp.bind (wp_onMem_any _) ?_
      rintro r _ ⟨mem, rfl⟩
      have h2 := h1'.withMem mem
      cases r with
      | none => trivial
      | some pml4 =>
          refine h2.setNew hm (fun _ => rfl) (fun _ => rfl) fun procs3 k3 h3 hm3 => ?_
          refine Wp.bind (wp_onMem_any _) ?_
          rintro _ _ ⟨mem', rfl⟩
          refine (h3.withMem mem').setNew hm3 (fun _ => rfl) (fun _ => rfl) fun _ _ h4 hm4 => ?_
          refine h4.setNew hm4 (fun _ => rfl) (fun _ => rfl) fun _ _ h5 hm5 => ?_
          refine h5.setNew hm5 (fun _ => rfl) (fun _ => rfl) fun procs6 k6 h6 hm6 => ?_
          rw [wp_bind, onFs, wp_on]
          refine (namei_root h6.quiet).mono ?_ fun _ _ => trivial
          rintro r s ⟨ip, rfl, hd⟩
          rw [wp_bind, modifyProc, wp_modify, modifyProc, wp_modify]
          have h7 := ((h6.did hd).setCwd hm6.idle).keepProc new (g := fun x => { x with state := .runnable })
            (fun _ => rfl) fun _ => rfl
          refine ⟨h7.inv (Lives.add new h.lives (fun p hp => ?_) ?_ ?_), h7.frees⟩
          · rw [upd_of_ne hp, upd_of_ne hp]
            exact hm6.others p hp
          · rw [upd_self]
          · rw [upd_self, upd_self]
            exact Option.some_ne_none ip

/-- The first process starts over the nodes of the image. -/
theorem boots_spec (h : Boots m k) : ∃ host N, Inv k ∧ k.fs.node = N ∧ Flat N ∧ ∀ name ∈ fileNames,
    Packed host N name := by
  obtain ⟨host, disk, console, initcode, himg, hok⟩ := h
  obtain ⟨-, N, -, -, -, -, hN⟩ := image_some himg
  have hk := (userInit_spec (inv_initial hN)).of_ok hok
  have hnode : k.fs.node = N := frees_eq hN.flat (by rw [← node_mount hN console]; exact hk.2)
  exact ⟨host, N, hk.1, hnode, hN.flat, hN.packed⟩

theorem Reachable.inv (h : Reachable k) : Inv k :=
  h.invariant (fun _ _ hb => (boots_spec hb).choose_spec.choose_spec.1) fun _ _ hk hs => hk.step hs

end

/-! ## A machine that boots -/

/-- A memory of 40 free frames behind the kernel. -/
def smallMem : Mem :=
  match kinit [⟨0x10000, 40 * pgsize4kb, true⟩] ⟨fun _ _ => 0, none, 0x10000, 1⟩ with
  | .ok (_, m) => m
  | .error _ => ⟨fun _ _ => 0, none, 0, 0⟩

/-- A program: one segment of three bytes for the address 4096, where it starts. -/
def program : List UInt8 :=
  -- the header of the file
  leBytes 4 elfMagic ++ List.replicate 20 0 ++ leBytes 8 0x1000 ++ leBytes 8 64 ++ List.replicate 16 0 ++ leBytes 2 1 ++
    List.replicate 6 0 ++
  -- the header of the segment
  leBytes 4 elfProgLoad ++ List.replicate 4 0 ++ leBytes 8 120 ++ leBytes 8 0x1000 ++ leBytes 8 0 ++ leBytes 8 3 ++
    leBytes 8 8 ++ List.replicate 8 0 ++ [1, 2, 3]

/-- `init` is the program, `cat` only its header, and the other files are empty. -/
def smallHost : Host := fun name =>
  some (if name = [105, 110, 105, 116] then program else if name = [99, 97, 116] then program.take
    elfHeaderSize else [])

def hostDisk : Nat → Bytes := (image smallHost).getD fun _ _ => 0

theorem image_host : image smallHost = some hostDisk := by
  have hshort : ∀ f ∈ [program, program.take elfHeaderSize, []], f.length ≤ 525 * 4096 := by decide +kernel
  have hsome : (image smallHost).isSome := image_isSome.mpr fun name _ hbad => by
    refine absurd (hbad _ rfl) (Nat.not_lt.mpr (hshort _ ?_))
    split
    · exact List.mem_cons_self
    · split
      · exact List.mem_cons_of_mem _ List.mem_cons_self
      · exact List.mem_cons_of_mem _ (List.mem_cons_of_mem _ List.mem_cons_self)
  obtain ⟨disk, hd⟩ := Option.isSome_iff_exists.mp hsome
  rw [hostDisk, hd, Option.getD_some]

def smallInitial : System := System.initial hostDisk smallMem fun _ => none

/-- The state in which the first process of the machine starts. -/
def smallSystem : System :=
  match userInit [] smallInitial with
  | .ok (_, k) => k
  | .error _ => smallInitial

/-- The first process. -/
def initId : ProcId := ⟨0, nproc_pos⟩

theorem one_lt_nproc : 1 < nproc := by decide

/-- The second process. -/
def childId : ProcId := ⟨1, one_lt_nproc⟩

theorem boots_small : Boots smallMem smallSystem := by
  have hok : (userInit [] smallInitial).isOk = true := by decide +kernel
  refine ⟨smallHost, hostDisk, fun _ => none, [], image_host, ?_⟩
  show userInit [] smallInitial = _
  unfold smallSystem
  cases hu : userInit [] smallInitial with
  | ok r => rfl
  | error e =>
      rw [hu] at hok
      cases hok

theorem reachable_small : Reachable smallSystem := ⟨smallMem, smallSystem, boots_small, .refl⟩

end Xv6.Kernel
