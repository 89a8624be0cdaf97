import StakedChain.Failure
import StakedChain.Account.PrivateKey
import StakedChain.Block.Transaction

namespace StakedChain.Issue

open Block

inductive Role where
  | producer (signer : Signer)
  | validator

def sign (signer : Signer) (chainId : Word64) (sender : Address) (body : Body) :
    Except (Stop ExecutionError) Transaction :=
  if signer.address = sender then
    match signer.sign (body.signingHash chainId) with
    | .ok sig => (body.attach sig chainId).mapError .fault
    | .error e => .error (.failed (.signing e))
  else .error (.failed (.unauthorizedSigner sender signer.address))

def check (chainId : Word64) (sender : Address) (body : Body) (tx : Transaction) :
    Except ExecutionError Unit :=
  let expected := body.signingHash chainId
  let found := tx.body.signingHash chainId
  if expected = found then
    match tx.sender chainId with
    | .ok signer => if signer = sender then .ok () else .error (.invalidSender sender signer)
    | .error e => .error (.invalidSignature e)
  else .error (.unexpectedTransaction expected found)

/-- Takes the first received transaction, which is gone also when it does not fit. -/
def accept (name : String) (chainId : Word64) (sender : Address) (body : Body) :
    List Transaction → Except ExecutionError Transaction × List Transaction
  | [] => (.error (.missingTransaction name), [])
  | tx :: rest => ((check chainId sender body tx).map fun _ => tx, rest)

def Role.seal (role : Role) (name : String) (chainId : Word64) (sender : Address) (body : Body)
    (received : List Transaction) : Except (Stop ExecutionError) Transaction × List Transaction :=
  match role with
  | .producer signer => (sign signer chainId sender body, received)
  | .validator =>
    let (result, rest) := accept name chainId sender body received
    (result.mapError .failed, rest)

end StakedChain.Issue
