import ChipEight.Main
import ChipEight.Proofs.Emulator.Audio
import ChipEight.Proofs.Emulator.Failing
import ChipEight.Proofs.Emulator.KeyWait
import ChipEight.Proofs.Emulator.Loading
import ChipEight.Proofs.Emulator.Nesting
import ChipEight.Proofs.Emulator.Signals
import ChipEight.Proofs.Emulator.Slicing
import ChipEight.Proofs.Playback
import ChipEight.Proofs.Replay
import ChipEight.Proofs.Machine.Footprint
import ChipEight.Proofs.Emulator.Footprint
import ChipEight.Clock.Stopwatch
import ChipEight.Proofs.Clock.Speed
import ChipEight.Proofs.Clock.Stopwatch
import ChipEight.Proofs.Emulator.Reporting
import ChipEight.Proofs.Emulator.Speed
import ChipEight.Proofs.Screen.Drawing
import ChipEight.Proofs.Emulator.Dialects
import ChipEight.Proofs.Emulator.Interleaving
import ChipEight.Proofs.Machine.Sprites
import ChipEight.Proofs.Keypad.History
import ChipEight.Proofs.Machine.Arithmetic
import ChipEight.Proofs.Machine.Transfers
import ChipEight.Proofs.Instruction.Mnemonic
import ChipEight.Proofs.Machine.Mnemonics
import ChipEight.Proofs.Listing
import ChipEight.Proofs.Emulator.Listing
