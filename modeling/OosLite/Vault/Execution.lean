import OosLite.Vault.Open
import OosLite.Engine.Execution

/-!
# Opening a store, computed

The run of an attempt to open in which nothing fails, and a store that is made with a password.
-/

namespace OosLite

open Files Effect

namespace StoreFiles

variable {α : Type}

/-- Nothing fails. -/
def noFaults : OpeningFaults := ⟨fun _ => false = true, False⟩

/-- The run of a program in which nothing fails. -/
def exec (answer : ∀ q : VaultQuestion, q.Ans) : OpeningProg α → StoreFiles → Except OpenError α × StoreFiles
  | .pure a, s => (.ok a, s)
  | .throw e, s => (.error e, s)
  | .op (.root o) k, s =>
    let r := Proc.respond (fun kind => .store (.ofIo kind)) (fun _ => false) answer none o s.root
    exec answer (k r.1) (s.withRoot r.2)
  | .op (.segmentFiles select) k, s => exec answer (k (.ok (s.disk.segments.listing select))) s
  | .op .database k, s => exec answer (k (.ok s.database)) s
  | .op .logLength k, s => exec answer (k (.ok ((s.disk.wal.data .log).map List.length))) s

theorem returns_exec (answer : ∀ q : VaultQuestion, q.Ans) (p : OpeningProg α) (s : StoreFiles) :
    Returns (openingMachine noFaults) p s (exec answer p s).1 (exec answer p s).2 := by
  induction p generalizing s with
  | pure a => exact .pure a s
  | throw e => exact .throw e s
  | op o k ih =>
    cases o with
    | root o => exact .op ⟨_, Proc.step_respond (fun _ => trivial) none o s.root, rfl⟩ (ih _ _)
    | segmentFiles _ | database | logLength => exact .op ⟨rfl, .inl rfl⟩ (ih _ _)

end StoreFiles

namespace VaultSample

/-- The sample's crates, with a tag that tells the key. -/
def crates : VaultCrates where
  toCrates := { Reference.crates [] with
    encrypt := fun key _ _ message => message ++ key.bytes.take 16
    decrypt := fun key _ _ cipher =>
      if cipher.drop (cipher.length - 16) = key.bytes.take 16 then some (cipher.take (cipher.length - 16))
      else none
    decrypt_encrypt := by
      intro key nonce aad message
      simp [key.length_eq]
    length_encrypt := by
      intro key nonce aad message
      simp [key.length_eq] }
  argon2 passphrase salt := .ok (FixedBytes.ofBytes 32 (passphrase ++ salt.bytes))

theorem authentic : VaultKey.Authentic crates := by
  intro key key' nonce aad message message' decrypted
  simp only [crates] at decrypted
  split at decrypted
  · rename_i tag
    have same := Option.some.inj decrypted
    simpa [key.length_eq] using same.symm
  · cases decrypted

def answer : ∀ q : VaultQuestion, q.Ans
  | .masterKey => FixedBytes.ofBytes 32 [7]
  | .salt => FixedBytes.ofBytes 16 [1]
  | .nonce => FixedBytes.ofBytes 24 [2]
  | .stamp => (0 : Nat)

def making : Opening := .initEncrypted "correct horse"

/-- The root directory once the key is made. -/
def made : StoreFiles :=
  (StoreFiles.exec answer (StoreFiles.openingKey crates "store" making) ⟨⟨⟨∅, fun _ => 0⟩, ()⟩, .new, false⟩).2

/-- The key of the store. -/
def masterKey : VaultKey := FixedBytes.ofBytes 32 [7]

def env : Env := crates.env (some masterKey)

open StorageEngine EngineSample in
/-- The store, opened. -/
def opened : StorageEngine := (StorageEngine.exec false answers (openInternal env) [] unopened).2

/-- A file that is stored. -/
def storing : EngineCall := .put "report" (EngineSample.file [104, 105]) (FixedBytes.ofBytes 16 [1])

end VaultSample

end OosLite
