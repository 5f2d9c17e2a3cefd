import FastParse.Routes.Reachable

namespace FastParse

open Framework State Routing

variable {env : Env} {m : Mem}

/-- A message for each peer, and a last one that `split_buf` hands to nobody. -/
def threeMessages : List UInt8 :=
  let message := fun nlri =>
    let body := updateBody [] (plainAttributes 0 7) nlri
    List.replicate 16 0xff ++ [0, UInt8.ofNat (body.length + 19), 2] ++ body
  message [8, 10, 8, 11] ++ message [8, 11] ++ message [8, 12]

end FastParse
