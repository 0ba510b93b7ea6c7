import Verigov.Types
import Verigov.Lib.Hex
import Verigov.Lib.Tool
import Verigov.Lib.Sha256

/-!
# The artifact store

`storePut` and `storeGet` of `tools/lib/common.js`: files named by the hash of
their bytes. A put leaves a file that is already there alone; a get checks what
it reads. What a get returns is therefore decided by what was there before the
first put.
-/

namespace Verigov

open Path Hex

/-- What the tools use of Node's `crypto`, of `@polkadot/util` and of strings. -/
structure Hashing where
  sha256 : Bytes → Hash32
  u8aToHex : Bytes → Text
  toLowerCase : Text → Text

namespace Hashing

def sha256Hex (H : Hashing) (buf : Bytes) : Text := H.u8aToHex (H.sha256 buf).toList

/-- `u8aToHex` writes lower-case digits after `0x`, and beside the lower-case
text itself only its other spellings in ASCII letters have it as lower case. -/
structure Lawful (H : Hashing) : Prop where
  u8aToHex : ∀ u8a, H.u8aToHex u8a = '0' :: 'x' :: hex u8a
  toLowerCase : ∀ t u8a, H.toLowerCase t = '0' :: 'x' :: hex u8a ↔
    t.map Char.toLower = '0' :: 'x' :: hex u8a

end Hashing

structure Host where
  cwd : Location
  REPO_ROOT : Text
  cwd_simple : ∀ name ∈ cwd, Simple name

def Host.STORE_DIR (host : Host) : Text := join host.REPO_ROOT "data/store".toList

/-- No artifact has too long a path. -/
def Host.StoreFits (host : Host) : Prop :=
  Disk.usablePath (join host.STORE_DIR (hex (List.replicate 32 0)))

instance (host : Host) : Decidable host.StoreFits := inferInstanceAs (Decidable (_ = true))

/-- `cid.replace(/^0x/, '')`. -/
def strip0x : Text → Text
  | '0' :: 'x' :: t => t
  | t => t

section

variable (H : Hashing) (host : Host)

def storePut (bytes : Bytes) : Tool Text := do
  Tool.mkdirSync host.cwd host.STORE_DIR
  let cid := H.sha256Hex bytes
  let file := join host.STORE_DIR (cid.drop 2)
  unless ← Tool.existsSync host.cwd file do
    Tool.writeFileSync host.cwd file bytes
  return cid

def storeGet (cid : Text) : Tool Bytes := do
  let file := join host.STORE_DIR (strip0x cid)
  Tool.ensure (← Tool.existsSync host.cwd file)
    ("artifact ".toList ++ cid ++ " not found in ".toList ++ host.STORE_DIR)
  let bytes ← Tool.readFileSync host.cwd file
  let actual := H.sha256Hex bytes
  Tool.ensure (actual == H.toLowerCase cid)
    ("artifact store corruption: ".toList ++ cid ++ " has content hash ".toList ++ actual)
  return bytes

def storePuts (puts : List Bytes) (d : Disk) : Disk :=
  puts.foldl (fun d bytes => Tool.left (storePut H host bytes d)) d

def storeLocation (bytes : Bytes) : Location :=
  resolve host.cwd host.STORE_DIR ++ [hex (H.sha256 bytes).toList]

end

variable {H : Hashing} {host : Host} {d d' m : Disk} {bytes other : Bytes} {cid : Text}

theorem Hashing.Lawful.sha256Hex (hH : H.Lawful) (bytes : Bytes) :
    H.sha256Hex bytes = '0' :: 'x' :: hex (H.sha256 bytes).toList := hH.u8aToHex _

theorem Hashing.Lawful.toLowerCase_sha256Hex (hH : H.Lawful) (bytes : Bytes) :
    H.toLowerCase (H.sha256Hex bytes) = H.sha256Hex bytes := by
  rw [hH.sha256Hex, hH.toLowerCase]
  simp

theorem Hashing.Lawful.drop_sha256Hex (hH : H.Lawful) (bytes : Bytes) :
    (H.sha256Hex bytes).drop 2 = hex (H.sha256 bytes).toList := by
  rw [hH.sha256Hex]
  rfl

theorem hash_hex_inj {h h' : Hash32} : hex h.toList = hex h'.toList ↔ h = h' :=
  ⟨fun heq => List.Vector.eq _ _ (hex_injective heq), fun heq => by rw [heq]⟩

theorem Hashing.Lawful.sha256Hex_eq_iff (hH : H.Lawful) (bytes : Bytes) (h : Hash32) :
    H.sha256Hex bytes = H.u8aToHex h.toList ↔ H.sha256 bytes = h := by
  rw [hH.sha256Hex, hH.u8aToHex, List.cons_inj_right, List.cons_inj_right, hash_hex_inj]

theorem Hashing.Lawful.sha256Hex_inj (hH : H.Lawful) :
    H.sha256Hex bytes = H.sha256Hex other ↔ H.sha256 bytes = H.sha256 other :=
  hH.sha256Hex_eq_iff bytes _

theorem hash_simple (h : Hash32) : Simple (hex h.toList) := by
  apply hex_simple
  intro hnil
  have hlen := h.toList_length
  rw [hnil] at hlen
  cases hlen

theorem STORE_DIR_ne_nil (host : Host) : host.STORE_DIR ≠ [] := join_ne_nil _ _

theorem resolve_store (H : Hashing) (host : Host) (bytes : Bytes) :
    resolve host.cwd (join host.STORE_DIR (hex (H.sha256 bytes).toList)) =
      storeLocation H host bytes :=
  resolve_join_simple _ (STORE_DIR_ne_nil host) (hash_simple _)

theorem storeLocation_inj :
    storeLocation H host bytes = storeLocation H host other ↔
      H.sha256 bytes = H.sha256 other := by
  unfold storeLocation
  rw [List.append_cancel_left_eq, List.singleton_inj, hash_hex_inj]

-- ---------------------------------------------------------------------------
-- Puts
-- ---------------------------------------------------------------------------

theorem storePut_run (H : Hashing) (host : Host) (bytes : Bytes) (d : Disk) :
    storePut H host bytes d =
      match d.mkdirSync host.cwd host.STORE_DIR with
      | none => .error .raised d
      | some m =>
        let file := join host.STORE_DIR ((H.sha256Hex bytes).drop 2)
        if m.existsSync host.cwd file then .ok (H.sha256Hex bytes) m
        else match m.writeFileSync host.cwd file bytes with
          | none => .error .raised m
          | some m' => .ok (H.sha256Hex bytes) m' := by
  unfold storePut
  simp only [Tool.bind_run, Tool.mkdirSync_run]
  cases d.mkdirSync host.cwd host.STORE_DIR with
  | none => rfl
  | some m =>
    simp only [Tool.existsSync_run]
    split
    · rfl
    · simp only [Tool.bind_run, Tool.writeFileSync_run]
      cases m.writeFileSync host.cwd _ bytes <;> rfl

theorem node_mkdir_store (hm : d.mkdirSync host.cwd host.STORE_DIR = some m) (H : Hashing)
    (bytes : Bytes) :
    m.node (storeLocation H host bytes) = d.node (storeLocation H host bytes) := by
  have hmade := Disk.mkdirSync_made hm
  cases hd : d.node (storeLocation H host bytes) with
  | some n => exact hmade.keeps _ _ hd
  | none =>
    by_contra hne
    have hpre := (hmade.adds _ hd (Option.isSome_iff_ne_none.mpr hne)).1.length_le
    simp [storeLocation] at hpre

/-- A file of the store comes into being by a put of its content, and stays. -/
theorem node_storePut (hH : H.Lawful) (bytes other : Bytes) (d : Disk) :
    (Tool.left (storePut H host bytes d)).node (storeLocation H host other) =
        d.node (storeLocation H host other) ∨
      d.node (storeLocation H host other) = none ∧ H.sha256 bytes = H.sha256 other ∧
        (Tool.left (storePut H host bytes d)).node (storeLocation H host other) =
          some (.file bytes) := by
  rw [storePut_run]
  cases hm : d.mkdirSync host.cwd host.STORE_DIR with
  | none => exact .inl rfl
  | some m =>
    have hdir := node_mkdir_store hm H other
    dsimp only
    split
    · exact .inl hdir
    · rename_i habsent
      rw [hH.drop_sha256Hex] at habsent ⊢
      cases hw : m.writeFileSync host.cwd
          (join host.STORE_DIR (hex (H.sha256 bytes).toList)) bytes with
      | none => exact .inl hdir
      | some m' =>
        obtain ⟨hv, ht, -⟩ := Disk.writable_of_writeFileSync hw
        rw [Disk.existsSync_iff _ _ hv ht, resolve_store, Option.not_isSome_iff_eq_none] at habsent
        have hnode := Disk.node_writeFileSync hw (storeLocation H host other)
        rw [resolve_store] at hnode
        by_cases hloc : storeLocation H host other = storeLocation H host bytes
        · right
          rw [if_pos hloc] at hnode
          refine ⟨?_, (storeLocation_inj.mp hloc).symm, hnode⟩
          rw [← hdir, hloc]
          exact habsent
        · left
          rw [if_neg hloc] at hnode
          exact hnode.trans hdir

theorem storePuts_cons (x : Bytes) (puts : List Bytes) (d : Disk) : storePuts H host (x :: puts) d =
    storePuts H host puts (Tool.left (storePut H host x d)) := rfl

/-- What is there is never touched again. -/
theorem node_storePuts_of_some (hH : H.Lawful) {n : Disk.Node} (puts : List Bytes)
    (hd : d.node (storeLocation H host bytes) = some n) :
    (storePuts H host puts d).node (storeLocation H host bytes) = some n := by
  induction puts generalizing d with
  | nil => exact hd
  | cons x puts ih =>
    rw [storePuts_cons]
    apply ih
    rcases node_storePut hH x bytes d with h | ⟨hnone, -, -⟩
    · rw [h, hd]
    · simp [hd] at hnone

theorem node_storePuts_of_none (hH : H.Lawful) (puts : List Bytes)
    (hd : d.node (storeLocation H host bytes) = none) :
    (storePuts H host puts d).node (storeLocation H host bytes) = none ∨
      ∃ x ∈ puts, H.sha256 x = H.sha256 bytes ∧
        (storePuts H host puts d).node (storeLocation H host bytes) = some (.file x) := by
  induction puts generalizing d with
  | nil => exact .inl hd
  | cons x puts ih =>
    rw [storePuts_cons]
    rcases node_storePut hH x bytes d with h | ⟨-, heq, h⟩
    · rcases ih (h.trans hd) with h | ⟨y, hy, h⟩
      · exact .inl h
      · exact .inr ⟨y, List.mem_cons_of_mem _ hy, h⟩
    · exact .inr ⟨x, List.mem_cons_self, heq, node_storePuts_of_some hH puts h⟩

theorem byteLength_hex (u8a : Bytes) : Disk.byteLength (hex u8a) = 2 * u8a.length := by
  rw [← length_hex]
  refine Disk.byteLength_ascii fun c hc => ?_
  obtain ⟨n, hn, rfl⟩ := mem_hex hc
  exact (by decide : ∀ n < 16, (Nat.digitChar n).utf8Size = 1) n hn

theorem usablePath_store (H : Hashing) (host : Host) (bytes : Bytes) :
    Disk.usablePath (join host.STORE_DIR (hex (H.sha256 bytes).toList)) ↔ host.StoreFits :=
  Disk.usablePath_join_congr (STORE_DIR_ne_nil host) (hash_simple _) (hex_simple (by simp))
    (nul_notMem_hex _) (nul_notMem_hex _) (by simp [byteLength_hex])

theorem store_noTrailingSep (H : Hashing) (host : Host) (bytes : Bytes) :
    hasTrailingSep (join host.STORE_DIR (hex (H.sha256 bytes).toList)) = false :=
  hasTrailingSep_join (STORE_DIR_ne_nil host) (hash_simple _)

theorem storePut_eq_ok (hH : H.Lawful) (h : storePut H host bytes d = .ok cid m) :
    cid = H.sha256Hex bytes ∧ host.StoreFits ∧
      m.node (storeLocation H host bytes) =
        some ((d.node (storeLocation H host bytes)).getD (.file bytes)) := by
  rw [storePut_run, hH.drop_sha256Hex] at h
  cases hm : d.mkdirSync host.cwd host.STORE_DIR with
  | none => simp [hm] at h
  | some m0 =>
    have hdir := node_mkdir_store hm H bytes
    simp only [hm] at h
    split at h
    · rename_i hexists
      simp only [EStateM.Result.ok.injEq] at h
      obtain ⟨rfl, rfl⟩ := h
      obtain ⟨hv, n, hn⟩ := Disk.usable_of_existsSync hexists
      rw [resolve_store] at hn
      exact ⟨rfl, (usablePath_store H host bytes).mp hv, by rw [← hdir, hn]; rfl⟩
    · rename_i habsent
      split at h
      · cases h
      · rename_i m1 hw
        simp only [EStateM.Result.ok.injEq] at h
        obtain ⟨rfl, rfl⟩ := h
        obtain ⟨hv, ht, -⟩ := Disk.writable_of_writeFileSync hw
        rw [Disk.existsSync_iff _ _ hv ht, resolve_store, hdir,
          Option.not_isSome_iff_eq_none] at habsent
        have hnode := Disk.node_writeFileSync hw (storeLocation H host bytes)
        rw [resolve_store, if_pos rfl] at hnode
        exact ⟨rfl, (usablePath_store H host bytes).mp hv, by rw [hnode, habsent]; rfl⟩

-- ---------------------------------------------------------------------------
-- Gets
-- ---------------------------------------------------------------------------

theorem storeGet_eq_ok : storeGet H host cid d = .ok bytes d' ↔
    d.readFileSync host.cwd (join host.STORE_DIR (strip0x cid)) = some bytes ∧
      H.sha256Hex bytes = H.toLowerCase cid ∧ d = d' := by
  simp only [storeGet, Tool.bind_eq_ok, Tool.existsSync_eq_ok, Tool.ensure_eq_ok,
    Tool.readFileSync_eq_ok, Tool.pure_eq_ok, beq_iff_eq]
  constructor
  · rintro ⟨b, m, ⟨-, rfl⟩, -, m, ⟨-, rfl⟩, x, m, ⟨hread, rfl⟩, -, m, ⟨hhash, rfl⟩, rfl, rfl⟩
    exact ⟨hread, hhash, rfl⟩
  · rintro ⟨hread, hhash, rfl⟩
    exact ⟨true, d, ⟨Disk.existsSync_of_read hread, rfl⟩, (), d, ⟨rfl, rfl⟩, bytes, d,
      ⟨hread, rfl⟩, (), d, ⟨hhash, rfl⟩, rfl, rfl⟩

theorem strip0x_sha256Hex (hH : H.Lawful) (bytes : Bytes) :
    strip0x (H.sha256Hex bytes) = hex (H.sha256 bytes).toList := by
  rw [hH.sha256Hex]
  rfl

theorem storeGet_returned (hH : H.Lawful) (hfits : host.StoreFits) :
    Tool.returned (storeGet H host (H.sha256Hex bytes) d) = some other ↔
      d.node (storeLocation H host bytes) = some (.file other) ∧
        H.sha256 other = H.sha256 bytes := by
  have hok : Tool.returned (storeGet H host (H.sha256Hex bytes) d) = some other ↔
      storeGet H host (H.sha256Hex bytes) d = .ok other d := by
    refine ⟨fun h => ?_, fun h => by rw [h]; rfl⟩
    cases hr : storeGet H host (H.sha256Hex bytes) d with
    | ok x d' =>
      rw [hr] at h
      cases h
      rw [(storeGet_eq_ok.mp hr).2.2]
    | error e d' =>
      rw [hr] at h
      cases h
  rw [hok, storeGet_eq_ok, strip0x_sha256Hex hH, Disk.readFileSync_eq_some, resolve_store,
    hH.toLowerCase_sha256Hex, hH.sha256Hex_inj]
  simp [(usablePath_store H host bytes).mpr hfits, store_noTrailingSep]

/-- After a put that returned, getting its CID gives its bytes iff nothing, or
these very bytes, had that name before the first put; and no get gives bytes
with another hash than it was asked for. -/
theorem storeGet_returns_iff (hH : H.Lawful) (host : Host) (d : Disk) (before : List Bytes)
    (b : Bytes) (after : List Bytes)
    (hfree : ∀ x ∈ before, H.sha256 x = H.sha256 b → x = b)
    (hput : storePut H host b (storePuts H host before d) = .ok cid m) :
    (Tool.returned (storeGet H host cid (storePuts H host after m)) = some b ↔
      d.node (storeLocation H host b) = none ∨
        d.node (storeLocation H host b) = some (.file b)) ∧
    ∀ cid bytes d d', storeGet H host cid d = .ok bytes d' →
      H.sha256Hex bytes = H.toLowerCase cid := by
  refine ⟨?_, fun cid bytes d d' h => (storeGet_eq_ok.mp h).2.1⟩
  obtain ⟨rfl, hfits, hm⟩ := storePut_eq_ok hH hput
  rw [storeGet_returned hH hfits, node_storePuts_of_some hH after hm]
  simp only [Option.some.injEq, and_true]
  cases hd : d.node (storeLocation H host b) with
  | none =>
    rcases node_storePuts_of_none hH before hd with h | ⟨x, hx, heq, h⟩
    · simp [h]
    · simp [h, hfree x hx heq]
  | some n => simp [node_storePuts_of_some hH before hd]

-- ---------------------------------------------------------------------------
-- Runs
-- ---------------------------------------------------------------------------

namespace Mock

def hashing : Hashing where
  sha256 := Sha256.sha256
  u8aToHex u8a := '0' :: 'x' :: hex u8a
  toLowerCase t := t.map Char.toLower

theorem hashing_lawful : hashing.Lawful := ⟨fun _ => rfl, fun _ _ => Iff.rfl⟩

def repoHost : Host where
  cwd := ["repo".toList]
  REPO_ROOT := "/repo".toList
  cwd_simple := by decide

/-- A crash left the first half of `artifact` under its name. -/
def artifact : Bytes := [0x76, 0x31]

def halfWrite : Tool Unit := do
  Tool.mkdirSync repoHost.cwd repoHost.STORE_DIR
  Tool.writeFileSync repoHost.cwd
    (join repoHost.STORE_DIR (hex (hashing.sha256 artifact).toList)) [0x76]

def crashed : Disk := Tool.left (halfWrite Disk.empty)

end Mock

theorem storeGet_returns_fresh : ∃ cid m,
    storePut Mock.hashing Mock.repoHost Mock.artifact Disk.empty = .ok cid m ∧
      Tool.returned (storeGet Mock.hashing Mock.repoHost cid
        (storePuts Mock.hashing Mock.repoHost [[0x76]] m)) = some Mock.artifact := by
  have hrun : (Tool.returned
      (storePut Mock.hashing Mock.repoHost Mock.artifact Disk.empty)).isSome := by
    decide +kernel
  cases hput : storePut Mock.hashing Mock.repoHost Mock.artifact Disk.empty with
  | ok cid m =>
    refine ⟨cid, m, rfl, (storeGet_returns_iff Mock.hashing_lawful Mock.repoHost Disk.empty []
      Mock.artifact [[0x76]] (by simp) hput).1.mpr (.inl ?_)⟩
    decide +kernel
  | error e m => simp [hput, Tool.returned] at hrun

/-- The put leaves the damaged file, and the get refuses it. -/
theorem storeGet_after_crash :
    let put := storePut Mock.hashing Mock.repoHost Mock.artifact Mock.crashed
    let cid := Mock.hashing.sha256Hex Mock.artifact
    Tool.returned put = some cid ∧
      Tool.returned (storeGet Mock.hashing Mock.repoHost cid (Tool.left put)) = none := by
  decide +kernel

end Verigov
