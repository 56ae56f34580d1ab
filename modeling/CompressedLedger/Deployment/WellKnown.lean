import CompressedLedger.Bytes.Fixed

/-!
# Well-known accounts and parameters

The accounts of a local network, each given by the number its 32 bytes denote and, in its comment,
by its base58 text; and the sizes of the version 1 state trees.
-/

namespace CompressedLedger.WellKnown

/-! ### Programs -/

/-- The program that verifies proofs and owns the transitions of compressed state.
`SySTEM1eSU2p4BGQfQpimFEWWSC1XDFeun3Nqzz3rT7` -/
def systemProgram : Pubkey :=
  FixedBytes.ofNat 0x06a755f82139054d4424b15af0c430cf2f4b7f98793ada1252d48f3666c6cbce

/-- The program that owns the accounts of trees and queues.
`compr6CUsB5m2jS4Y3831ztGSTnDpnKJTKS95d64XVq` -/
def compressionProgram : Pubkey :=
  FixedBytes.ofNat 0x092c36ec22f5178300fdb44aaa6affcff0a46e1cbc641c0e3ed09da13b9ef508

/-- The program that does nothing and serves as a log.
`noopb9bkMVfRPU8AsbpTUg8AQkHtKwMYZiFUjNRtMmV` -/
def logProgram : Pubkey :=
  FixedBytes.ofNat 0x0bbc0fc0bb47ca2f74c4112e94ab13cfa3c634e5dc17eacb03cd1a23cd7e787c

/-- The account that registers the system program.
`35hkDgaAKwMCaxRz2ocSZ6NaUrtKkyNqU6c4RV3tYJRh` -/
def registeredProgram : Pubkey :=
  FixedBytes.ofNat 0x1eebc48cfb3264bbc34bf5c5a5a834fc6750006f2986d96f235bc8875ef4dd44

/-! ### Trees and their queues -/

/-- The version 1 state tree.
`smt1NamzXdq4AMqS2fS2F1i5KTYPZRhoHgWx38d8WsT` -/
def stateTree : Pubkey :=
  FixedBytes.ofNat 0x0d01c928ab45d365595a34e87717fbb0008a19d22f052c9da1f988c47c57de3a

/-- The queue of the version 1 state tree.
`nfq1NvQDJ2GEgnS8zt9prAe8rjjpAW1zFkrvZoBR148` -/
def nullifierQueue : Pubkey :=
  FixedBytes.ofNat 0x0bb309fdae0e3ad483e90743b4dba7d2855195819222c7725dab6ae4928cfd55

/-- The context account of the version 1 state tree.
`cpi1uHzrEhBG733DoEJNgHCyRS3XmmyVNZx5fonubE4` -/
def cpiContext : Pubkey :=
  FixedBytes.ofNat 0x092d455efba24a789969b68c443ad54f224fd6807c53fd359a50684c74f4a2ed

/-- The version 1 address tree.
`amt1Ayt45jfbdw5YSo7iz6WZxUmnZsQTYXy82hVwyC2` -/
def addressTree : Pubkey :=
  FixedBytes.ofNat 0x08a6e975e71225e3e8015ac70aff6e78b0bdd882e4922a7e83860f3781e8654f

/-- The queue of the version 1 address tree.
`aq1S9z4reTSQAdgWHGD2zDaS39sjGrAxbR31vxJ2F4F` -/
def addressQueue : Pubkey :=
  FixedBytes.ofNat 0x08aa72ecea40ba2e7158cc3000dcfe1b23e6bd547f3942396a6544a6f03ba38c

/-- The batched state tree.
`bmt1LryLZUMmF7ZtqESaw7wifBXLfXHQYoE4GAmrahU` -/
def batchedStateTree : Pubkey :=
  FixedBytes.ofNat 0x08e87e298f0faa26c9d8ef41d7e9e92596a70fa93eb99f08f8cdd1f59d8ec817

/-- The queue of the batched state tree.
`oq1na8gojfdUhsfCpyjNt6h4JaDWtHf1yQj4koBWfto` -/
def batchedOutputQueue : Pubkey :=
  FixedBytes.ofNat 0x0bff019d63e059fbec084dabe27379eab6fdad7973902a54d7562e194d42073c

/-- The context account of the batched state tree.
`cpi15BoVPKgEPw5o8wc2T816GE7b378nMXnhH3Xbq4y` -/
def batchedCpiContext : Pubkey :=
  FixedBytes.ofNat 0x092d454cb6601331e356301fddb0413a8b0ddc8a2ef680851bdd4fd48c9f8d16

/-- The batched address tree, which is its own queue.
`amt2kaJA14v3urZbZvnc5v2np8jqvc4Z8zDep5wbtzx` -/
def batchedAddressTree : Pubkey :=
  FixedBytes.ofNat 0x08a6e998b05fe92b98a0d9f779d9dbe8b2f3eef67813287beba52649809168bd

/-! ### Parameters -/

/-- The depth of version 1 state trees. -/
def stateTreeDepth : Nat := 26

/-- The number of past roots of a version 1 state tree that a proof may name. -/
def stateTreeRoots : Nat := 2800

end CompressedLedger.WellKnown
